import SourceIndex.Proofs.TokenSpans

/-! Spans of trees that are built with brackets: a mark first, then what belongs to the node, then
the node. The nodes added in between form a forest, and adding the node makes one tree of it. What
was laid out since the mark starts at it or behind it and ends where the last token does, which is
what the node spans. -/

namespace SourceIndex

namespace Arena

/-- The later of two nodes starts where the earlier one ends or behind it. -/
def InOrder (a : Arena) (js : List Nat) : Prop :=
  ∀ j ∈ js, ∀ j' ∈ js, j < j' → (a.span j).2 ≤ (a.span j').1

/-- The nodes that the second arena has beyond the first one form a forest with these roots: every
other node has one parent, whose span contains its own, and siblings lie one behind the other. -/
structure Forest (a a' : Arena) (roots : List Nat) : Prop where
  root : ∀ j ∈ roots, a.size ≤ j ∧ j < a'.size
  child : ∀ i j, a.size ≤ i → j ∈ a'.children (some i) → a.size ≤ j ∧ j < i ∧ j ∉ roots
  once : ∀ i i' j, a.size ≤ i → a.size ≤ i' → j ∈ a'.children (some i) →
    j ∈ a'.children (some i') → i = i'
  owned : ∀ j, a.size ≤ j → j < a'.size →
    j ∈ roots ∨ ∃ i, a.size ≤ i ∧ j ∈ a'.children (some i)
  inside : ∀ i j, a.size ≤ i → j ∈ a'.children (some i) →
    (a'.span i).1 ≤ (a'.span j).1 ∧ (a'.span j).2 ≤ (a'.span i).2
  apart : ∀ i, a.size ≤ i → a'.InOrder (a'.children (some i))
  inOrder : a'.InOrder roots

variable {a a' a'' : Arena} {roots roots' : List Nat}

theorem InOrder.extend {js : List Nat} (h : a.InOrder js) (hextends : a.Extends a')
    (hjs : ∀ j ∈ js, j < a.size) : a'.InOrder js := by
  intro j hj j' hj' hlt
  rw [hextends.span j (hjs j hj), hextends.span j' (hjs j' hj')]
  exact h j hj j' hj' hlt

theorem forest_of_size_eq (h : a'.size = a.size) : Forest a a' [] := by
  have hnone : ∀ i, a.size ≤ i → ∀ j, j ∉ a'.children (some i) := by
    intro i hi j hj
    have hlt := lt_size_of_mem_children hj
    omega
  constructor
  case root =>
    intro j hj
    exact absurd hj List.not_mem_nil
  case child =>
    intro i j hi hj
    exact absurd hj (hnone i hi j)
  case once =>
    intro i i' j hi _ hj _
    exact absurd hj (hnone i hi j)
  case owned =>
    intro j hj hlt
    omega
  case inside =>
    intro i j hi hj
    exact absurd hj (hnone i hi j)
  case apart =>
    intro i hi j hj
    exact absurd hj (hnone i hi j)
  case inOrder =>
    intro j hj
    exact absurd hj List.not_mem_nil

namespace Forest

theorem append (h : Forest a a' roots) (h' : Forest a' a'' roots') (hsize : a.size ≤ a'.size)
    (hextends : a'.Extends a'')
    (hbehind : ∀ j ∈ roots, ∀ j' ∈ roots', (a''.span j).2 ≤ (a''.span j').1) :
    Forest a a'' (roots ++ roots') where
  root j hj := by
    have hle := hextends.size_le
    rcases List.mem_append.mp hj with hj | hj
    · have hroot := h.root j hj
      omega
    · have hroot := h'.root j hj
      omega
  child i j hi hj := by
    rw [List.mem_append, not_or]
    by_cases hold : i < a'.size
    · rw [hextends.children i hold] at hj
      obtain ⟨hle, hlt, hfree⟩ := h.child i j hi hj
      refine ⟨hle, hlt, hfree, fun hmem => ?_⟩
      have hroot := h'.root j hmem
      omega
    · obtain ⟨hle, hlt, hfree⟩ := h'.child i j (by omega) hj
      refine ⟨by omega, hlt, fun hmem => ?_, hfree⟩
      have hroot := h.root j hmem
      omega
  once i i' j hi hi' hj hj' := by
    by_cases hold : i < a'.size
    · rw [hextends.children i hold] at hj
      have hlt := (h.child i j hi hj).2.1
      by_cases hold' : i' < a'.size
      · rw [hextends.children i' hold'] at hj'
        exact h.once i i' j hi hi' hj hj'
      · have hle := (h'.child i' j (by omega) hj').1
        omega
    · have hle := (h'.child i j (by omega) hj).1
      by_cases hold' : i' < a'.size
      · rw [hextends.children i' hold'] at hj'
        have hlt := (h.child i' j hi' hj').2.1
        omega
      · exact h'.once i i' j (by omega) (by omega) hj hj'
  owned j hj hlt := by
    by_cases hold : j < a'.size
    · rcases h.owned j hj hold with hmem | ⟨i, hi, hmem⟩
      · exact .inl (List.mem_append_left _ hmem)
      · rw [← hextends.children i (lt_size_of_mem_children hmem)] at hmem
        exact .inr ⟨i, hi, hmem⟩
    · rcases h'.owned j (by omega) hlt with hmem | ⟨i, hi, hmem⟩
      · exact .inl (List.mem_append_right _ hmem)
      · exact .inr ⟨i, by omega, hmem⟩
  inside i j hi hj := by
    by_cases hold : i < a'.size
    · rw [hextends.children i hold] at hj
      have hlt := (h.child i j hi hj).2.1
      rw [hextends.span i hold, hextends.span j (by omega)]
      exact h.inside i j hi hj
    · exact h'.inside i j (by omega) hj
  apart i hi := by
    by_cases hold : i < a'.size
    · rw [hextends.children i hold]
      refine (h.apart i hi).extend hextends fun j hj => ?_
      have hlt := (h.child i j hi hj).2.1
      omega
    · exact h'.apart i (by omega)
  inOrder j hj j' hj' hlt := by
    rcases List.mem_append.mp hj with hj | hj
    · rcases List.mem_append.mp hj' with hj' | hj'
      · exact h.inOrder.extend hextends (fun k hk => (h.root k hk).2) j hj j' hj' hlt
      · exact hbehind j hj j' hj'
    · rcases List.mem_append.mp hj' with hj' | hj'
      · have hroot := h'.root j hj
        have hroot' := h.root j' hj'
        omega
      · exact h'.inOrder j hj j' hj' hlt

/-- A node that names the roots and spans them makes one tree of them. -/
theorem close (h : Forest a a' roots) (hsize : a.size ≤ a'.size) {payload : Payload}
    (hchildren : ∀ j, j ∈ payload.children ↔ j ∈ roots) {start stop : Nat}
    (hspan : ∀ j ∈ roots, start ≤ (a'.span j).1 ∧ (a'.span j).2 ≤ stop) (kind : Kind) :
    Forest a (a'.add kind start stop payload) [a'.size] := by
  have hextends : a'.Extends (a'.add kind start stop payload) := extends_add ..
  -- what the new node and the nodes before it name
  have hcases : ∀ {i j}, j ∈ (a'.add kind start stop payload).children (some i) →
      i = a'.size ∧ j ∈ roots ∨ i < a'.size ∧ j ∈ a'.children (some i) := by
    intro i j hj
    rw [children_add] at hj
    by_cases hnew : i = a'.size
    · rw [if_pos hnew, hchildren] at hj
      exact .inl ⟨hnew, hj⟩
    · rw [if_neg hnew] at hj
      exact .inr ⟨lt_size_of_mem_children hj, hj⟩
  have hnamed : ∀ j ∈ roots, j ∈ (a'.add kind start stop payload).children (some a'.size) := by
    intro j hj
    rw [children_add, if_pos rfl]
    exact (hchildren j).mpr hj
  have hnew : (a'.add kind start stop payload).span a'.size = (start, stop) := by
    rw [span_add, if_pos rfl]
  constructor
  case root =>
    intro j hj
    rw [List.mem_singleton.mp hj, size_add]
    omega
  case child =>
    intro i j hi hj
    rw [List.mem_singleton]
    rcases hcases hj with ⟨rfl, hmem⟩ | ⟨hlt, hmem⟩
    · have hroot := h.root j hmem
      omega
    · have hchild := h.child i j hi hmem
      omega
  case once =>
    intro i i' j hi hi' hj hj'
    rcases hcases hj with ⟨rfl, hmem⟩ | ⟨-, hmem⟩
    · rcases hcases hj' with ⟨rfl, -⟩ | ⟨-, hmem'⟩
      · rfl
      · exact absurd hmem (h.child i' j hi' hmem').2.2
    · rcases hcases hj' with ⟨rfl, hmem'⟩ | ⟨-, hmem'⟩
      · exact absurd hmem' (h.child i j hi hmem).2.2
      · exact h.once i i' j hi hi' hmem hmem'
  case owned =>
    intro j hj hlt
    rw [size_add] at hlt
    by_cases hlast : j = a'.size
    · exact .inl (List.mem_singleton.mpr hlast)
    · rcases h.owned j hj (by omega) with hmem | ⟨i, hi, hmem⟩
      · exact .inr ⟨a'.size, hsize, hnamed j hmem⟩
      · rw [← hextends.children i (lt_size_of_mem_children hmem)] at hmem
        exact .inr ⟨i, hi, hmem⟩
  case inside =>
    intro i j hi hj
    rcases hcases hj with ⟨rfl, hmem⟩ | ⟨hlt, hmem⟩
    · rw [hnew, hextends.span j (h.root j hmem).2]
      exact hspan j hmem
    · have hchild := h.child i j hi hmem
      rw [hextends.span i hlt, hextends.span j (by omega)]
      exact h.inside i j hi hmem
  case apart =>
    intro i hi j hj j' hj' hlt'
    rcases hcases hj with ⟨rfl, hmem⟩ | ⟨hlt, hmem⟩
    · rcases hcases hj' with ⟨-, hmem'⟩ | ⟨hlt, -⟩
      · exact h.inOrder.extend hextends (fun k hk => (h.root k hk).2) j hmem j' hmem' hlt'
      · omega
    · rcases hcases hj' with ⟨rfl, -⟩ | ⟨-, hmem'⟩
      · omega
      · refine (h.apart i hi).extend hextends (fun k hk => ?_) j hmem j' hmem' hlt'
        have hchild := h.child i k hi hk
        omega
  case inOrder =>
    intro j hj j' hj' hlt
    rw [List.mem_singleton.mp hj, List.mem_singleton.mp hj'] at hlt
    omega

end Forest

/-- One tree and nothing beside it. -/
theorem Forest.isTree {r : Nat} (h : Forest .empty a [r]) (hbuilt : a.Built) : a.IsTree where
  built := hbuilt
  smaller i j hj := (h.child i j (Nat.zero_le i) hj).2.1
  once i i' j hj hj' := h.once i i' j (Nat.zero_le i) (Nat.zero_le i') hj hj'

theorem Forest.exists_chain {r : Nat} (h : Forest .empty a [r]) (hbuilt : a.Built) {i : Nat}
    (hi : i < a.size) : ∃ links, a.parent^[links] (some i) = some r := by
  -- a parent has a higher index, and there are only so many
  induction hleft : a.size - i using Nat.strong_induction_on generalizing i with
  | _ left ih =>
    rcases h.owned i (Nat.zero_le i) hi with hroot | ⟨p, -, hmem⟩
    · exact ⟨0, congrArg some (List.mem_singleton.mp hroot)⟩
    · have hlt := (h.isTree hbuilt).smaller p i hmem
      have hp := lt_size_of_mem_children hmem
      obtain ⟨links, hlinks⟩ := ih (a.size - p) (by omega) hp rfl
      refine ⟨links + 1, ?_⟩
      rw [Function.iterate_succ_apply, (h.isTree hbuilt).parent_of_mem_children hmem]
      exact hlinks

theorem Forest.inside_of_iterate_parent {r : Nat} (h : Forest .empty a [r]) (hbuilt : a.Built)
    {links i j : Nat} (hchain : a.parent^[links] (some j) = some i) :
    (a.span i).1 ≤ (a.span j).1 ∧ (a.span j).2 ≤ (a.span i).2 := by
  induction links generalizing j with
  | zero =>
    obtain rfl : j = i := Option.some.inj hchain
    exact ⟨le_rfl, le_rfl⟩
  | succ links ih =>
    obtain ⟨p, hparent, hrest⟩ := exists_parent_of_iterate_succ hchain
    have hmem := (hbuilt.parent_eq_some_iff.mp hparent).1.1
    have hstep := h.inside p j (Nat.zero_le p) hmem
    have habove := ih hrest
    omega

end Arena

theorem SourceFile.nodeRange_of_get? {f : SourceFile} {i : Nat} {n : Node}
    (h : f.arena.get? (some i) = some n) :
    f.nodeRange (some i) = (LineMap.build f.text).range f.text n.start n.stop := by
  rw [nodeRange, h, ← f.lines_eq]
  rfl

namespace Builder

/-- The start and the payload of the node that an operation adds without a token. -/
def Op.closing? : Op → Option (Nat × Payload)
  | node _ start payload => some (start, payload)
  | emptyNode _ start => some (start, .bare)
  | _ => none

/-- The operations are well bracketed from this builder on, and these are the nodes at the top. -/
inductive Bracketed : Builder → List Op → List Nat → Prop where
  | nil (b : Builder) : Bracketed b [] []
  | plain (b : Builder) {op : Op} (hleaf : op.leafText? = none) (hclosing : op.closing? = none) :
    Bracketed b [op] []
  | leaf (b : Builder) {op : Op} {text : String} (hleaf : op.leafText? = some text) :
    Bracketed b [op] [b.arena.size]
  | composite {b : Builder} {ops : List Op} {nodes : List Nat} {op : Op} {payload : Payload}
    (h : Bracketed b ops nodes) (htoken : ∃ op ∈ ops, op.text?.isSome)
    (hclosing : op.closing? = some (b.mark, payload))
    (hchildren : ∀ j, j ∈ payload.children ↔ j ∈ nodes) :
    Bracketed b (ops ++ [op]) [(b.run ops).arena.size]
  | append {b : Builder} {ops ops' : List Op} {nodes nodes' : List Nat}
    (h : Bracketed b ops nodes) (h' : Bracketed (b.run ops) ops' nodes') :
    Bracketed b (ops ++ ops') (nodes ++ nodes')

/-- The span lies behind the mark of the first builder and in front of the end of the last token of
the second one, between characters of its text. -/
structure Placed (b b' : Builder) (span : Nat × Nat) : Prop where
  mark_le : b.mark ≤ span.1
  le : span.1 ≤ span.2
  le_end : span.2 ≤ b'.lastTokenEnd
  start : Text.SplitsAt b'.text.toList span.1
  stop : Text.SplitsAt b'.text.toList span.2

/-- From the first builder to the second one a forest was laid out. -/
structure Grows (b b' : Builder) (roots : List Nat) : Prop where
  follows : b.Follows b'
  forest : b.arena.Forest b'.arena roots
  placed : ∀ i, b.arena.size ≤ i → i < b'.arena.size → Placed b b' (b'.arena.span i)

variable {b b' b'' : Builder} {op : Op} {text : String} {roots roots' : List Nat}

theorem splitsAt_mark_of_newline (h : b'.text = b.text.push '\n') :
    Text.SplitsAt b'.text.toList b.mark := by
  cases hseparator : b.needsSeparator with
  | false =>
    refine ⟨b.text.toList, ['\n'], ?_, ?_⟩
    · rw [h, String.toList_push]
    · rw [Text.byteSize_toList, mark, hseparator]
      rfl
  | true =>
    have hmark : b.mark = Text.byteSize b'.text.toList := by
      rw [Text.byteSize_toList, h, String.utf8ByteSize_push, mark, hseparator]
      rfl
    rw [hmark]
    exact Text.splitsAt_byteSize _

/-- Once a token has been appended, the mark from before is a place in the text that the last token
reaches. Until then it may be one byte behind the end of the text. -/
theorem mark_reached {ops : List Op} (hb : b.Sound) (h : ∃ op ∈ ops, op.text?.isSome) :
    b.mark ≤ (b.run ops).lastTokenEnd ∧ Text.SplitsAt (b.run ops).text.toList b.mark := by
  induction ops generalizing b with
  | nil => simp at h
  | cons op ops ih =>
    have hrest : (op.apply b).Follows (b.run (op :: ops)) := follows_run (op.apply b) ops
    have hsound := ((follows_apply op b).sound hb).1
    cases hop : op.text? with
    | some text =>
      obtain ⟨htext, hend⟩ := apply_of_text? hop b
      have hmark : b.mark ≤ (op.apply b).lastTokenEnd := by
        rw [hend, htext, String.utf8ByteSize_append, utf8ByteSize_separated]
        omega
      have hsplit : Text.SplitsAt (op.apply b).text.toList b.mark := by
        refine ⟨b.separated.toList, text.toList, ?_, ?_⟩
        · rw [htext, String.toList_append]
        · rw [Text.byteSize_toList, utf8ByteSize_separated]
      exact ⟨hmark.trans (hrest.sound hsound).2, hsplit.extend hrest.text⟩
    | none =>
      have hlater : ∃ op ∈ ops, op.text?.isSome := by
        obtain ⟨op', hmem, hsome⟩ := h
        rcases List.mem_cons.mp hmem with rfl | hmem
        · rw [hop] at hsome
          cases hsome
        · exact ⟨op', hmem, hsome⟩
      obtain ⟨hle, hsplit⟩ := ih hsound hlater
      refine ⟨(follows_apply op b).mark.trans hle, ?_⟩
      obtain ⟨-, htext | htext⟩ := apply_of_text?_eq_none hop b
      · rw [mark_congr htext] at hsplit
        exact hsplit
      · exact (splitsAt_mark_of_newline htext).extend hrest.text

theorem Placed.mono {b₀ : Builder} {span : Nat × Nat} (h : Placed b b' span)
    (hfirst : b₀.Follows b) (hlast : b'.Follows b'') (hb' : b'.Sound) : Placed b₀ b'' span where
  mark_le := hfirst.mark.trans h.mark_le
  le := h.le
  le_end := h.le_end.trans (hlast.sound hb').2
  start := h.start.extend hlast.text
  stop := h.stop.extend hlast.text

namespace Grows

theorem of_size_eq (h : b.Follows b') (hsize : b'.arena.size = b.arena.size) : Grows b b' [] where
  follows := h
  forest := Arena.forest_of_size_eq hsize
  placed i hi hlt := by omega

theorem append (h : Grows b b' roots) (h' : Grows b' b'' roots') (hb' : b'.Sound) :
    Grows b b'' (roots ++ roots') where
  follows := h.follows.trans h'.follows
  forest := by
    refine h.forest.append h'.forest h.follows.arena.size_le h'.follows.arena fun j hj j' hj' => ?_
    -- what ends with the last token so far is in front of the mark
    have hroot := h.forest.root j hj
    have hroot' := h'.forest.root j' hj'
    have hend := (h.placed j hroot.1 hroot.2).le_end
    have hstart := (h'.placed j' hroot'.1 hroot'.2).mark_le
    have hle := hb'.lastTokenEnd_le
    have hmark := b'.utf8ByteSize_le_mark
    rw [h'.follows.arena.span j hroot.2]
    omega
  placed i hi hlt := by
    by_cases hold : i < b'.arena.size
    · rw [h'.follows.arena.span i hold]
      exact (h.placed i hi hold).mono (.refl b) h'.follows hb'
    · have hb'' := (h'.follows.sound hb').1
      exact (h'.placed i (by omega) hlt).mono h.follows (.refl b'') hb''

/-- The node that starts at the mark covers the roots, and nothing else is left at the top. -/
theorem node (h : Grows b b' roots) (hb' : b'.Sound) (hend : b.mark ≤ b'.lastTokenEnd)
    (hsplit : Text.SplitsAt b'.text.toList b.mark) {payload : Payload}
    (hchildren : ∀ j, j ∈ payload.children ↔ j ∈ roots) (kind : Kind) :
    Grows b (b'.node kind b.mark payload) [b'.arena.size] := by
  have harena : (b'.node kind b.mark payload).arena =
      b'.arena.add kind b.mark b'.lastTokenEnd payload := by
    rw [Builder.node, max_eq_left hend]
  have hfollows : b'.Follows (b'.node kind b.mark payload) := follows_apply (.node ..) b'
  refine ⟨h.follows.trans hfollows, ?_, ?_⟩
  · rw [harena]
    refine h.forest.close h.follows.arena.size_le hchildren (fun j hj => ?_) kind
    have hroot := h.forest.root j hj
    have hplaced := h.placed j hroot.1 hroot.2
    exact ⟨hplaced.mark_le, hplaced.le_end⟩
  · intro i hi hlt
    by_cases hold : i < b'.arena.size
    · rw [hfollows.arena.span i hold]
      exact (h.placed i hi hold).mono (.refl b) hfollows hb'
    · rw [harena, Arena.size_add] at hlt
      obtain rfl : i = b'.arena.size := by omega
      rw [harena, Arena.span_add, if_pos rfl]
      exact ⟨le_rfl, hend, le_rfl, hsplit, hb'⟩

end Grows

theorem leaf_eq_node (b : Builder) (kind : Kind) (text : String) (payload : Payload) :
    b.leaf kind text payload = (b.token text).node kind b.mark payload := by
  have hle : b.mark ≤ (b.token text).lastTokenEnd := by
    show b.mark ≤ (b.separated ++ text).utf8ByteSize
    rw [String.utf8ByteSize_append, utf8ByteSize_separated]
    omega
  rw [leaf, node, max_eq_left hle, utf8ByteSize_separated]

theorem apply_of_closing? {start : Nat} {payload : Payload}
    (h : op.closing? = some (start, payload)) (b : Builder) :
    ∃ kind, op.apply b = b.node kind start payload := by
  cases op with
  | node kind =>
    obtain ⟨rfl, rfl⟩ := Prod.mk.inj (Option.some.inj h)
    exact ⟨kind, rfl⟩
  | emptyNode kind =>
    obtain ⟨rfl, rfl⟩ := Prod.mk.inj (Option.some.inj h)
    exact ⟨kind, rfl⟩
  | _ => cases h

theorem size_apply_of_plain (hleaf : op.leafText? = none) (hclosing : op.closing? = none)
    (b : Builder) : (op.apply b).arena.size = b.arena.size := by
  cases op with
  | newline | token => rfl
  | addFlags r flags => exact Arena.size_addFlags r flags
  | node | emptyNode => cases hclosing
  | _ => cases hleaf

theorem Bracketed.grows {ops : List Op} (h : Bracketed b ops roots) (hb : b.Sound) :
    Grows b (b.run ops) roots := by
  induction h with
  | nil b => exact .of_size_eq (.refl b) rfl
  | @plain b op hleaf hclosing =>
    exact .of_size_eq (follows_apply op b) (size_apply_of_plain hleaf hclosing b)
  | @leaf b op text hleaf =>
    obtain ⟨kind, payload, hnone, happly⟩ := apply_of_leafText? hleaf b
    have hfollows : b.Follows (b.token text) := follows_apply (.token text) b
    have htoken : ∃ op ∈ [Op.token text], op.text?.isSome := ⟨_, List.mem_singleton_self _, rfl⟩
    have hchildren : ∀ j, j ∈ payload.children ↔ j ∈ [] := by
      intro j
      rw [hnone]
    obtain ⟨hend, hsplit⟩ := mark_reached hb htoken
    show Grows b (op.apply b) [b.arena.size]
    rw [happly, leaf_eq_node]
    exact (Grows.of_size_eq hfollows rfl).node (hfollows.sound hb).1 hend hsplit hchildren kind
  | @composite b ops nodes op payload h htoken hclosing hchildren ih =>
    obtain ⟨kind, happly⟩ := apply_of_closing? hclosing (b.run ops)
    have hsound := ((follows_run b ops).sound hb).1
    obtain ⟨hend, hsplit⟩ := mark_reached hb htoken
    rw [run_append]
    show Grows b (op.apply (b.run ops)) [(b.run ops).arena.size]
    rw [happly]
    exact (ih hb).node hsound hend hsplit hchildren kind
  | @append b ops ops' nodes nodes' h h' ih ih' =>
    have hsound := ((follows_run b ops).sound hb).1
    rw [run_append]
    exact (ih hb).append (ih' hsound) hsound

theorem built_run {ops : List Op} (h : b.arena.Built) : (b.run ops).arena.Built := by
  induction ops generalizing b with
  | nil => exact h
  | cons op ops ih =>
    apply ih
    cases op with
    | newline | token => exact h
    | addFlags r flags => exact h.addFlags r flags
    | _ => exact h.add ..

theorem mem_children_sourceFile {statements : List NodeRef} {fileName : String}
    {script : ScriptKind} {isDeclarationFile : Bool} {j : Nat} :
    j ∈ (Payload.sourceFile statements fileName script isDeclarationFile).children ↔
      some j ∈ statements := by
  simp [Payload.children, Payload.layout?, Layout.children, Field.children]

section Finish

variable {name : String} {ops : List Op} {nodes : List Nat} {statements : List NodeRef}

theorem sound_new (name : String) : Sound { fileName := name } := ⟨[], [], rfl, rfl⟩

theorem Bracketed.finish (h : Bracketed { fileName := name } ops nodes)
    (hstatements : ∀ j, some j ∈ statements ↔ j ∈ nodes) :
    let b := run { fileName := name } ops
    let f := b.finish statements
    f.arena.Built ∧ Arena.Forest .empty f.arena [b.arena.size] ∧
      ∀ i < f.arena.size, (f.arena.span i).1 ≤ (f.arena.span i).2 ∧
        f.text.SplitsAt (f.arena.span i).1 ∧ f.text.SplitsAt (f.arena.span i).2 := by
  intro b f
  have hgrows := h.grows (sound_new name)
  have hsound := (hgrows.follows.sound (sound_new name)).1
  have hwhole : ∀ i, i < b.arena.size → (b.arena.span i).2 ≤ b.text.utf8ByteSize := fun i hi =>
    (hgrows.placed i (Nat.zero_le i) hi).le_end.trans hsound.lastTokenEnd_le
  refine ⟨(built_run .empty).add .., ?_, ?_⟩
  · refine hgrows.forest.close (Nat.zero_le _) (fun j => ?_) (fun j hj => ?_) _
    · rw [mem_children_sourceFile, hstatements]
    · exact ⟨Nat.zero_le _, hwhole j (hgrows.forest.root j hj).2⟩
  · intro i hi
    have hspan : f.arena.span i =
        if i = b.arena.size then (0, b.text.utf8ByteSize) else b.arena.span i := Arena.span_add ..
    by_cases hroot : i = b.arena.size
    · rw [hspan, if_pos hroot]
      refine ⟨Nat.zero_le _, ⟨[], f.text, rfl, rfl⟩, ?_⟩
      rw [← Text.byteSize_toList]
      exact Text.splitsAt_byteSize f.text
    · have hlt : i < b.arena.size + 1 := Arena.size_add .. ▸ hi
      have hold : i < b.arena.size := by omega
      have hplaced := hgrows.placed i (Nat.zero_le i) hold
      rw [hspan, if_neg hroot]
      exact ⟨hplaced.le, hplaced.start, hplaced.stop⟩

/-- In a tree that was built with brackets every node lies inside all its ancestors, by bytes as by
lines and columns, the root is above every node, and siblings lie one behind the other. -/
theorem bracketed_spans_nest (h : Bracketed { fileName := name } ops nodes)
    (hstatements : ∀ j, some j ∈ statements ↔ j ∈ nodes) :
    let f := (run { fileName := name } ops).finish statements
    f.arena.IsTree ∧
    (∀ i n, f.arena.get? (some i) = some n →
      n.start ≤ n.stop ∧ ∃ links, f.arena.parent^[links] (some i) = f.root) ∧
    (∀ links i j n m, f.arena.parent^[links] (some i) = some j →
      f.arena.get? (some i) = some n → f.arena.get? (some j) = some m →
      m.start ≤ n.start ∧ n.stop ≤ m.stop ∧
        (f.nodeRange (some j)).contains (f.nodeRange (some i)) = true) ∧
    ∀ i j j' n n', j ∈ f.arena.children (some i) → j' ∈ f.arena.children (some i) → j < j' →
      f.arena.get? (some j) = some n → f.arena.get? (some j') = some n' → n.stop ≤ n'.start := by
  intro f
  obtain ⟨hbuilt, hforest, hspans⟩ := h.finish hstatements
  refine ⟨hforest.isTree hbuilt, ?_, ?_, ?_⟩
  · intro i n hn
    have hi := Arena.lt_size_of_get? hn
    have hspan := hspans i hi
    rw [Arena.span_of_get? hn] at hspan
    exact ⟨hspan.1, hforest.exists_chain hbuilt hi⟩
  · intro links i j n m hchain hn hm
    have hinside := hforest.inside_of_iterate_parent hbuilt hchain
    have hi := hspans i (Arena.lt_size_of_get? hn)
    have hj := hspans j (Arena.lt_size_of_get? hm)
    rw [Arena.span_of_get? hn] at hinside hi
    rw [Arena.span_of_get? hm] at hinside hj
    refine ⟨hinside.1, hinside.2, ?_⟩
    rw [SourceFile.nodeRange_of_get? hn, SourceFile.nodeRange_of_get? hm]
    exact (LineMap.range_contains_iff hj.2.1 hj.2.2 hi.2.1 hi.2.2).mpr hinside
  · intro i j j' n n' hj hj' hlt hn hn'
    have hapart := hforest.apart i (Nat.zero_le i) j hj j' hj' hlt
    rw [Arena.span_of_get? hn, Arena.span_of_get? hn'] at hapart
    exact hapart

end Finish

/-- A clause with a statement on a line of its own. -/
def clauseOps : List Op :=
  [.token "default:", .newline, .ident "é", .token ";",
    .node .expressionStatement 9 (.statement (.expression (some 0))),
    .node .defaultClause 0 (.statement (.clause none [some 1]))]

theorem clauseOps_nest :
    Bracketed { fileName := "a.ts" } clauseOps [2] ∧
      let f := (run { fileName := "a.ts" } clauseOps).finish [some 2]
      f.arena.parent^[2] (some 0) = some 2 ∧
        (f.nodeRange (some 2)).contains (f.nodeRange (some 0)) = true := by
  have hopen : Bracketed { fileName := "a.ts" } [.token "default:", .newline] [] :=
    .append (.plain _ rfl rfl) (.plain _ rfl rfl)
  have hmark : (run { fileName := "a.ts" } [.token "default:", .newline]).mark = 9 := by
    decide +kernel
  have hstatement : Bracketed (run { fileName := "a.ts" } [.token "default:", .newline])
      [.ident "é", .token ";", .node .expressionStatement 9 (.statement (.expression (some 0)))]
      [1] :=
    .composite (.append (.leaf _ rfl) (.plain _ rfl rfl)) ⟨.ident "é", by simp, rfl⟩
      (by rw [hmark]; rfl) fun _ => Iff.rfl
  have hclause : Bracketed { fileName := "a.ts" } clauseOps [2] :=
    .composite (.append hopen hstatement) ⟨.ident "é", by simp, rfl⟩ rfl fun _ => Iff.rfl
  have hnamed : ∀ j, some j ∈ [some 2] ↔ j ∈ [2] := by simp
  obtain ⟨-, -, hinside, -⟩ := bracketed_spans_nest hclause hnamed
  refine ⟨hclause, rfl, ?_⟩
  exact (hinside 2 0 2 _ _ rfl rfl rfl).2.2

end Builder

end SourceIndex
