import SourceIndex.Proofs.LinePositions
import SourceIndex.Proofs.Parents
import SourceIndex.Tree.Builder

/-! What a builder lays out. Text is only appended, and nodes keep their spans and children once
they are there, so a span that fits the text when its token is appended fits the finished text. The
mark is where the next token starts: it counts the separator in advance, and whatever comes before
the token, it never moves back. -/

namespace SourceIndex

namespace Text

theorem utf8ByteSize_ofList (t : Text) : (String.ofList t).utf8ByteSize = byteSize t := by
  induction t with
  | nil => rfl
  | cons c t ih =>
    rw [← List.singleton_append, String.ofList_append, String.utf8ByteSize_append, ih,
      ← String.singleton_eq_ofList, String.utf8ByteSize_singleton]
    rfl

theorem byteSize_toList (s : String) : byteSize s.toList = s.utf8ByteSize := by
  rw [← utf8ByteSize_ofList, String.ofList_toList]

theorem SplitsAt.extend {t t' : Text} {offset : Nat} (h : t.SplitsAt offset) (hle : t <+: t') :
    t'.SplitsAt offset := by
  obtain ⟨before, after, rfl, rfl⟩ := h
  obtain ⟨more, rfl⟩ := hle
  exact ⟨before, after ++ more, List.append_assoc .., rfl⟩

end Text

namespace Arena

def span (a : Arena) (i : Nat) : Nat × Nat :=
  ((a.get? (some i)).map fun n => (n.start, n.stop)).getD (0, 0)

/-- The nodes of the first arena are in the second one with the spans and children they had. -/
structure Extends (a a' : Arena) : Prop where
  size_le : a.size ≤ a'.size
  span : ∀ i < a.size, a'.span i = a.span i
  children : ∀ i < a.size, a'.children (some i) = a.children (some i)

variable {a a' a'' : Arena}

theorem exists_get?_of_lt {i : Nat} (h : i < a.size) : ∃ n, a.get? (some i) = some n :=
  ⟨a.nodes[i], Array.getElem?_eq_getElem h⟩

theorem lt_size_of_get? {i : Nat} {n : Node} (h : a.get? (some i) = some n) : i < a.size :=
  (Array.getElem?_eq_some_iff.mp h).1

theorem span_of_get? {i : Nat} {n : Node} (h : a.get? (some i) = some n) :
    a.span i = (n.start, n.stop) := by
  rw [span, h]
  rfl

theorem size_add (kind : Kind) (start stop : Nat) (payload : Payload) :
    (a.add kind start stop payload).size = a.size + 1 := Array.size_push ..

theorem get?_add (kind : Kind) (start stop : Nat) (payload : Payload) (i : Nat) :
    (a.add kind start stop payload).get? (some i) =
      if i = a.size then some ⟨kind, 0, start, stop, payload⟩ else a.get? (some i) :=
  Array.getElem?_push

theorem span_add (kind : Kind) (start stop : Nat) (payload : Payload) (i : Nat) :
    (a.add kind start stop payload).span i = if i = a.size then (start, stop) else a.span i := by
  rw [span, get?_add]
  by_cases hi : i = a.size
  · rw [if_pos hi, if_pos hi]
    rfl
  · rw [if_neg hi, if_neg hi, span]

theorem Extends.refl (a : Arena) : a.Extends a := ⟨le_rfl, fun _ _ => rfl, fun _ _ => rfl⟩

theorem Extends.trans (h : a.Extends a') (h' : a'.Extends a'') : a.Extends a'' where
  size_le := h.size_le.trans h'.size_le
  span i hi := (h'.span i (hi.trans_le h.size_le)).trans (h.span i hi)
  children i hi := (h'.children i (hi.trans_le h.size_le)).trans (h.children i hi)

theorem extends_add (kind : Kind) (start stop : Nat) (payload : Payload) :
    a.Extends (a.add kind start stop payload) where
  size_le := by
    rw [size_add]
    omega
  span i hi := by rw [span_add, if_neg hi.ne]
  children i hi := by rw [children_add, if_neg hi.ne]

theorem size_addFlags (r : NodeRef) (flags : Nat) : (a.addFlags r flags).size = a.size := by
  cases r with
  | none => rfl
  | some i => simp [addFlags, size]

theorem extends_addFlags (r : NodeRef) (flags : Nat) : a.Extends (a.addFlags r flags) where
  size_le := (size_addFlags r flags).ge
  span i _ := by
    cases r with
    | none => rfl
    | some k =>
      simp only [span, get?, addFlags, Option.bind_some, Array.getElem?_modify]
      split
      · cases a.nodes[i]? <;> rfl
      · rfl
  children i _ := children_addFlags r flags

end Arena

namespace Builder

/-- A call that adds to the text or to the nodes. -/
inductive Op where
  | newline
  | token (text : String)
  | ident (name : String)
  | privateIdent (name : String)
  | keyword (kind : Kind)
  | stringLit (value : String)
  | numeric (text : String)
  | rawLiteral (kind : Kind) (text : String)
  | templatePart (kind : Kind) (source cooked : String)
  | node (kind : Kind) (start : Nat) (payload : Payload)
  | emptyNode (kind : Kind) (start : Nat)
  | addFlags (r : NodeRef) (flags : Nat)

namespace Op

def apply : Op → Builder → Builder
  | newline, b => b.newline
  | token text, b => b.token text
  | ident name, b => b.ident name
  | privateIdent name, b => b.privateIdent name
  | keyword kind, b => b.keyword kind
  | stringLit value, b => b.stringLit value
  | numeric text, b => b.numeric text
  | rawLiteral kind text, b => b.rawLiteral kind text
  | templatePart kind source cooked, b => b.templatePart kind source cooked
  | node kind start payload, b => b.node kind start payload
  | emptyNode kind start, b => b.emptyNode kind start
  | addFlags r flags, b => b.addFlags r flags

/-- The token that is appended with a node of its own. -/
def leafText? : Op → Option String
  | ident name => some name
  | privateIdent name => some name
  | keyword kind => some (kind.tokenText?.getD "")
  | stringLit value => some ("\"" ++ value ++ "\"")
  | numeric text => some text
  | rawLiteral _ text => some text
  | templatePart _ source _ => some source
  | _ => none

/-- The token that is appended, with a node or without one. -/
def text? : Op → Option String
  | token text => some text
  | op => op.leafText?

theorem text?_of_leafText? {op : Op} {text : String} (h : op.leafText? = some text) :
    op.text? = some text := by
  cases op with
  | token => cases h
  | _ => exact h

end Op

def run (b : Builder) (ops : List Op) : Builder := ops.foldl (fun b op => op.apply b) b

theorem run_append (b : Builder) (ops ops' : List Op) :
    b.run (ops ++ ops') = (b.run ops).run ops' := List.foldl_append ..

variable {b b' b'' : Builder} {op : Op} {text : String}

theorem utf8ByteSize_separated (b : Builder) : b.separated.utf8ByteSize = b.mark := by
  unfold separated mark
  cases b.needsSeparator with
  | false => rfl
  | true => exact String.utf8ByteSize_push

theorem text_prefix_separated (b : Builder) : b.text.toList <+: b.separated.toList := by
  unfold separated
  cases b.needsSeparator with
  | false => exact List.prefix_rfl
  | true =>
    rw [if_pos rfl, String.toList_push]
    exact List.prefix_append ..

theorem apply_of_leafText? (h : op.leafText? = some text) (b : Builder) :
    ∃ kind payload, payload.children = [] ∧ op.apply b = b.leaf kind text payload := by
  cases op with
  | ident | privateIdent | keyword | stringLit | numeric | rawLiteral | templatePart =>
    obtain rfl := Option.some.inj h
    exact ⟨_, _, rfl, rfl⟩
  | _ => cases h

theorem apply_of_text? (h : op.text? = some text) (b : Builder) :
    (op.apply b).text = b.separated ++ text ∧
      (op.apply b).lastTokenEnd = (op.apply b).text.utf8ByteSize := by
  cases hleaf : op.leafText? with
  | some text' =>
    obtain ⟨kind, payload, -, happly⟩ := apply_of_leafText? hleaf b
    obtain rfl : text' = text := Option.some.inj ((Op.text?_of_leafText? hleaf).symm.trans h)
    rw [happly]
    exact ⟨rfl, rfl⟩
  | none =>
    cases op with
    | token =>
      obtain rfl := Option.some.inj h
      exact ⟨rfl, rfl⟩
    | _ => cases hleaf.symm.trans h

theorem apply_of_text?_eq_none (h : op.text? = none) (b : Builder) :
    (op.apply b).lastTokenEnd = b.lastTokenEnd ∧
      ((op.apply b).text = b.text ∨ (op.apply b).text = b.text.push '\n') := by
  cases op with
  | newline => exact ⟨rfl, .inr rfl⟩
  | node | emptyNode | addFlags => exact ⟨rfl, .inl rfl⟩
  | _ => cases h

theorem arena_extends_apply (op : Op) (b : Builder) : b.arena.Extends (op.apply b).arena := by
  cases op with
  | newline | token => exact .refl _
  | addFlags r flags => exact Arena.extends_addFlags r flags
  | _ => exact Arena.extends_add ..

/-- The last token ends between two characters of the text. -/
def Sound (b : Builder) : Prop := Text.SplitsAt b.text.toList b.lastTokenEnd

/-- The second builder has gone on from the first one. -/
structure Follows (b b' : Builder) : Prop where
  text : b.text.toList <+: b'.text.toList
  mark : b.mark ≤ b'.mark
  sound : b.Sound → b'.Sound ∧ b.lastTokenEnd ≤ b'.lastTokenEnd
  arena : b.arena.Extends b'.arena

theorem utf8ByteSize_le_mark (b : Builder) : b.text.utf8ByteSize ≤ b.mark := Nat.le_add_right ..

theorem mark_congr (h : b'.text = b.text) : b'.mark = b.mark := by
  unfold mark needsSeparator
  rw [h]

theorem mark_le_of_push {c : Char} (h : b'.text = b.text.push c) : b.mark ≤ b'.mark := by
  have hsize : b'.text.utf8ByteSize = b.text.utf8ByteSize + c.utf8Size := by
    rw [h, String.utf8ByteSize_push]
  have hpos := c.utf8Size_pos
  have hle := b'.utf8ByteSize_le_mark
  have hmark : b.mark ≤ b.text.utf8ByteSize + 1 := by
    unfold mark
    split <;> omega
  omega

theorem Sound.lastTokenEnd_le (h : b.Sound) : b.lastTokenEnd ≤ b.text.utf8ByteSize := by
  obtain ⟨before, after, htext, hsize⟩ := h
  rw [← Text.byteSize_toList, htext, Text.byteSize_append]
  omega

namespace Follows

theorem refl (b : Builder) : b.Follows b :=
  ⟨List.prefix_rfl, le_rfl, fun h => ⟨h, le_rfl⟩, .refl _⟩

theorem trans (h : b.Follows b') (h' : b'.Follows b'') : b.Follows b'' where
  text := h.text.trans h'.text
  mark := h.mark.trans h'.mark
  sound hb := by
    obtain ⟨hb', hle⟩ := h.sound hb
    obtain ⟨hb'', hle'⟩ := h'.sound hb'
    exact ⟨hb'', hle.trans hle'⟩
  arena := h.arena.trans h'.arena

end Follows

theorem follows_apply_of_text? (h : op.text? = some text) (b : Builder) :
    b.Follows (op.apply b) := by
  obtain ⟨htext, hend⟩ := apply_of_text? h b
  have hbegins : b.text.toList <+: (op.apply b).text.toList := by
    rw [htext, String.toList_append]
    exact b.text_prefix_separated.trans (List.prefix_append ..)
  have hmark : b.mark ≤ (op.apply b).text.utf8ByteSize := by
    rw [htext, String.utf8ByteSize_append, utf8ByteSize_separated]
    omega
  have hsplit : (op.apply b).Sound := by
    rw [Sound, hend, ← Text.byteSize_toList]
    exact Text.splitsAt_byteSize _
  refine ⟨hbegins, hmark.trans (utf8ByteSize_le_mark _), fun hb => ⟨hsplit, ?_⟩,
    arena_extends_apply op b⟩
  have hle := hb.lastTokenEnd_le
  have hle' := b.utf8ByteSize_le_mark
  omega

theorem follows_apply (op : Op) (b : Builder) : b.Follows (op.apply b) := by
  cases h : op.text? with
  | some text => exact follows_apply_of_text? h b
  | none =>
    obtain ⟨hend, htext | htext⟩ := apply_of_text?_eq_none h b
    · refine ⟨htext ▸ List.prefix_rfl, (mark_congr htext).ge, fun hb => ⟨?_, hend.ge⟩,
        arena_extends_apply op b⟩
      rw [Sound, htext, hend]
      exact hb
    · have hbegins : b.text.toList <+: (op.apply b).text.toList := by
        rw [htext, String.toList_push]
        exact List.prefix_append ..
      refine ⟨hbegins, mark_le_of_push htext, fun hb => ⟨?_, hend.ge⟩, arena_extends_apply op b⟩
      rw [Sound, hend]
      exact hb.extend hbegins

theorem follows_run (b : Builder) (ops : List Op) : b.Follows (b.run ops) := by
  induction ops generalizing b with
  | nil => exact .refl b
  | cons op ops ih => exact (follows_apply op b).trans (ih (op.apply b))

theorem follows_run_take (b : Builder) (ops : List Op) {k k' : Nat} (h : k ≤ k') :
    (b.run (ops.take k)).Follows (b.run (ops.take k')) := by
  have htake : ops.take k' = ops.take k ++ (ops.take k').drop k := by
    conv_lhs => rw [← List.take_append_drop k (ops.take k'), List.take_take, Nat.min_eq_left h]
  rw [htake, run_append]
  exact follows_run ..

theorem run_take_succ {ops : List Op} {k : Nat} (h : ops[k]? = some op) (b : Builder) :
    b.run (ops.take (k + 1)) = op.apply (b.run (ops.take k)) := by
  rw [List.take_add_one, h, run_append]
  rfl

/-- The token of the operation starts at this offset of the text, and so does the node that it may
have. -/
def Op.AppendsAt (op : Op) (b : Builder) (start : Nat) : Prop :=
  ∃ text front, op.text? = some text ∧ (op.apply b).text = front ++ text ∧
    front.utf8ByteSize = start ∧
    (op.leafText?.isSome → ((op.apply b).arena.span b.arena.size).1 = start)

/-- The operation with this number appends this token together with this node. -/
def Creates (b : Builder) (ops : List Op) (k i : Nat) (text : String) : Prop :=
  ∃ op, ops[k]? = some op ∧ op.leafText? = some text ∧ i = (b.run (ops.take k)).arena.size

theorem span_apply_of_leafText? (h : op.leafText? = some text) (b : Builder) :
    (op.apply b).arena.size = b.arena.size + 1 ∧
      (op.apply b).arena.span b.arena.size = (b.mark, (op.apply b).text.utf8ByteSize) := by
  have hend := (apply_of_text? (Op.text?_of_leafText? h) b).2
  obtain ⟨kind, payload, -, happly⟩ := apply_of_leafText? h b
  have harena : (op.apply b).arena =
      b.arena.add kind b.separated.utf8ByteSize (op.apply b).lastTokenEnd payload := by
    rw [happly]
    rfl
  rw [harena, Arena.size_add, Arena.span_add, if_pos rfl, utf8ByteSize_separated, hend]
  exact ⟨rfl, rfl⟩

theorem appendsAt_mark (h : op.text?.isSome) (b : Builder) : op.AppendsAt b b.mark := by
  obtain ⟨text, htext⟩ := Option.isSome_iff_exists.mp h
  refine ⟨text, b.separated, htext, (apply_of_text? htext b).1, utf8ByteSize_separated b, ?_⟩
  intro hleaf
  obtain ⟨text', htext'⟩ := Option.isSome_iff_exists.mp hleaf
  rw [(span_apply_of_leafText? htext' b).2]

theorem Op.AppendsAt.eq_mark {start : Nat} (h : op.AppendsAt b start) : start = b.mark := by
  obtain ⟨text, front, htext, happly, rfl, -⟩ := h
  have hsize := congrArg String.utf8ByteSize (happly.symm.trans (apply_of_text? htext b).1)
  rw [String.utf8ByteSize_append, String.utf8ByteSize_append, utf8ByteSize_separated] at hsize
  omega

/-- A token that has a node stays where the mark was before it, and the next mark is behind it. -/
theorem Creates.spec {ops : List Op} {k i : Nat} (h : b.Creates ops k i text) :
    ∃ before after : Text, (b.run ops).text.toList = before ++ (text.toList ++ after) ∧
      Text.byteSize before = (b.run (ops.take k)).mark ∧
      Text.byteSize (before ++ text.toList) ≤ (b.run (ops.take (k + 1))).mark ∧
      i < (b.run ops).arena.size ∧
      (b.run ops).arena.span i =
        (Text.byteSize before, Text.byteSize (before ++ text.toList)) := by
  obtain ⟨op, hop, hleaf, rfl⟩ := h
  have hnext : b.run (ops.take (k + 1)) = op.apply (b.run (ops.take k)) := run_take_succ hop b
  have hrest : (b.run (ops.take (k + 1))).Follows (b.run ops) := by
    have hfollows := follows_run (b.run (ops.take (k + 1))) (ops.drop (k + 1))
    rwa [← run_append, List.take_append_drop] at hfollows
  rw [hnext] at hrest ⊢
  generalize b.run (ops.take k) = b₀ at hrest ⊢
  have htext := (apply_of_text? (Op.text?_of_leafText? hleaf) b₀).1
  obtain ⟨hsize, hspan⟩ := span_apply_of_leafText? hleaf b₀
  obtain ⟨after, hafter⟩ := hrest.text
  have hbefore : Text.byteSize b₀.separated.toList = b₀.mark := by
    rw [Text.byteSize_toList, utf8ByteSize_separated]
  have hstop : Text.byteSize (b₀.separated.toList ++ text.toList) =
      (op.apply b₀).text.utf8ByteSize := by
    rw [← Text.byteSize_toList, htext, String.toList_append]
  refine ⟨b₀.separated.toList, after, ?_, hbefore, ?_, ?_, ?_⟩
  · rw [← hafter, htext, String.toList_append, List.append_assoc]
  · rw [hstop]
    exact utf8ByteSize_le_mark _
  · have hle := hrest.arena.size_le
    omega
  · rw [hrest.arena.span _ (by omega), hspan, hbefore, hstop]

theorem Creates.finish {ops : List Op} {k i : Nat} (h : b.Creates ops k i text)
    (statements : List NodeRef) :
    ∃ before after n, ((b.run ops).finish statements).text = before ++ (text.toList ++ after) ∧
      ((b.run ops).finish statements).arena.get? (some i) = some n ∧
      n.start = Text.byteSize before ∧ n.stop = Text.byteSize (before ++ text.toList) ∧
      n.start = (b.run (ops.take k)).mark ∧ n.stop ≤ (b.run (ops.take (k + 1))).mark := by
  obtain ⟨before, after, htext, hmark, hnext, hi, hspan⟩ := h.spec
  obtain ⟨n, hn⟩ := Arena.exists_get?_of_lt hi
  rw [Arena.span_of_get? hn] at hspan
  obtain ⟨hstart, hstop⟩ := Prod.mk.inj hspan
  refine ⟨before, after, n, htext, ?_, hstart, hstop, hstart.trans hmark, hstop.trans_le hnext⟩
  exact (Arena.get?_add ..).trans ((if_neg hi.ne).trans hn)

/-- Spans match the text. A token that has a node is found in the finished text where the node says,
between two characters, and tokens follow one another. At every moment the mark is where a token
would start, and no token starts before an earlier mark. -/
theorem spans_match_text (name : String) (ops : List Op) (statements : List NodeRef) :
    let b : Builder := { fileName := name }
    let f := (b.run ops).finish statements
    (∀ k i text, b.Creates ops k i text → ∃ n, f.arena.get? (some i) = some n ∧
      n.start ≤ n.stop ∧ n.stop ≤ Text.byteSize f.text ∧ f.text.SplitsAt n.start ∧
      f.text.SplitsAt n.stop ∧ f.text.slice? n.start n.stop = some text.toList ∧
      f.nodeText (some i) = text) ∧
    (∀ k i text k' i' text' n n', b.Creates ops k i text → b.Creates ops k' i' text' → k < k' →
      f.arena.get? (some i) = some n → f.arena.get? (some i') = some n' → n.stop ≤ n'.start) ∧
    (∀ k (op : Op), op.text?.isSome → op.AppendsAt (b.run (ops.take k)) (b.run (ops.take k)).mark) ∧
    ∀ k k' op start, k ≤ k' → ops[k']? = some op → Op.AppendsAt op (b.run (ops.take k')) start →
      (b.run (ops.take k)).mark ≤ start := by
  intro b f
  refine ⟨?_, ?_, fun k op h => appendsAt_mark h _, ?_⟩
  · intro k i text h
    obtain ⟨before, after, n, hf, hn, hstart, hstop, -, -⟩ := h.finish statements
    have hf' : f.text = (before ++ text.toList) ++ after := by
      rw [List.append_assoc]
      exact hf
    have hslice : f.text.slice? n.start n.stop = some text.toList := by
      rw [hstart, hstop]
      exact hf ▸ Text.slice?_append ..
    refine ⟨n, hn, ?_, ?_, ⟨before, _, hf, hstart.symm⟩, ⟨_, after, hf', hstop.symm⟩, hslice, ?_⟩
    · rw [hstart, hstop, Text.byteSize_append]
      omega
    · rw [hstop, hf', Text.byteSize_append (before ++ text.toList)]
      omega
    · rw [SourceFile.nodeText, hn, Option.bind_some, hslice, Option.getD_some, String.ofList_toList]
  · intro k i text k' i' text' n n' h h' hlt hn hn'
    obtain ⟨-, -, m, -, hm, -, -, -, hnext⟩ := h.finish statements
    obtain ⟨-, -, m', -, hm', -, -, hmark, -⟩ := h'.finish statements
    obtain rfl : m = n := Option.some.inj (hm.symm.trans hn)
    obtain rfl : m' = n' := Option.some.inj (hm'.symm.trans hn')
    have hmono := (follows_run_take b ops (Nat.succ_le_of_lt hlt)).mark
    rw [hmark]
    exact hnext.trans hmono
  · intro k k' op start hle _ h
    rw [h.eq_mark]
    exact (follows_run_take b ops hle).mark

/-- An empty token on a line of its own, between two that are not. -/
def emptyTokenOps : List Op := [.ident "é", .newline, .numeric "", .stringLit "x "]

theorem emptyTokenOps_spans :
    Creates { fileName := "a.ts" } emptyTokenOps 2 1 "" ∧
      Creates { fileName := "a.ts" } emptyTokenOps 3 2 "\"x \"" ∧
      let f := (run { fileName := "a.ts" } emptyTokenOps).finish []
      f.nodeText (some 1) = "" ∧ f.nodeText (some 2) = "\"x \"" := by
  have hempty : Creates { fileName := "a.ts" } emptyTokenOps 2 1 "" := ⟨_, rfl, rfl, rfl⟩
  have hquoted : Creates { fileName := "a.ts" } emptyTokenOps 3 2 "\"x \"" := ⟨_, rfl, rfl, rfl⟩
  obtain ⟨hspans, -, -, -⟩ := spans_match_text "a.ts" emptyTokenOps []
  obtain ⟨_, -, -, -, -, -, -, htext⟩ := hspans 2 1 "" hempty
  obtain ⟨_, -, -, -, -, -, -, htext'⟩ := hspans 3 2 "\"x \"" hquoted
  exact ⟨hempty, hquoted, htext, htext'⟩

end Builder

end SourceIndex
