import Mathlib.Data.List.TakeWhile
import SourceIndex.Proofs.Declarations
import SourceIndex.Proofs.LinePositions

/-! Where references to a constructor are asked for. Between its last modifier and its keyword there
may be blanks and comments. The blanks are passed over and a comment is not, so the question is put
at the keyword exactly if there is no comment, and at the first comment otherwise. -/

namespace SourceIndex

/-- The characters at which a line comment ends. -/
def isLineEnd (c : Char) : Bool := c = '\n' || c = '\r' || c = '\u2028' || c = '\u2029'

/-- What may stand between two tokens. A line comment goes up to the end of its line, which is taken
as a part of it here, and a block comment up to the first mark that closes it. -/
inductive Trivia where
  | blank (c : Char) (is_blank : isBlank c = true)
  | lineComment (body : Text) (stop : Char) (one_line : ∀ c ∈ body, isLineEnd c = false)
      (at_end : isLineEnd stop = true)
  | blockComment (body : Text) (closed_once : ¬ ['*', '/'] <:+: body)

namespace Trivia

def text : Trivia → Text
  | blank c _ => [c]
  | lineComment body stop _ _ => '/' :: '/' :: (body ++ [stop])
  | blockComment body _ => '/' :: '*' :: (body ++ ['*', '/'])

def isComment : Trivia → Bool
  | blank _ _ => false
  | _ => true

def spell (gap : List Trivia) : Text := gap.flatMap text

/-- What stands in front of the first comment. -/
def blanksOf (gap : List Trivia) : List Trivia := gap.takeWhile (!·.isComment)

theorem text_ne_nil (t : Trivia) : t.text ≠ [] := by
  cases t <;> simp [text]

theorem exists_text_of_isComment {t : Trivia} (h : t.isComment = true) :
    ∃ rest, t.text = '/' :: rest := by
  cases t with
  | blank => simp [isComment] at h
  | lineComment => exact ⟨_, rfl⟩
  | blockComment => exact ⟨_, rfl⟩

/-- Of trivia and a token that follows them, exactly the blanks in front of the first comment are
passed over. -/
theorem takeWhile_isBlank_spell (gap : List Trivia) {token : Text}
    (htoken : token.takeWhile isBlank = []) :
    (spell gap ++ token).takeWhile isBlank = spell (blanksOf gap) := by
  induction gap with
  | nil => exact htoken
  | cons t gap ih =>
    rw [spell, List.flatMap_cons, List.append_assoc, blanksOf, List.takeWhile_cons]
    cases hcomment : t.isComment with
    | true =>
      obtain ⟨rest, htext⟩ := exists_text_of_isComment hcomment
      rw [htext, List.cons_append, List.takeWhile_cons_of_neg (by decide)]
      rfl
    | false =>
      cases t with
      | blank c hc =>
        rw [text, List.singleton_append, List.takeWhile_cons_of_pos hc]
        exact congrArg (c :: ·) ih
      | lineComment => cases hcomment
      | blockComment => cases hcomment

theorem byteSize_spell_blanksOf_eq_iff {gap : List Trivia} :
    Text.byteSize (spell (blanksOf gap)) = Text.byteSize (spell gap) ↔
      ∀ t ∈ gap, t.isComment = false := by
  have hsplit : spell gap =
      spell (blanksOf gap) ++ spell (gap.dropWhile (!·.isComment)) := by
    rw [spell, spell, spell, ← List.flatMap_append, blanksOf, List.takeWhile_append_dropWhile]
  have hnil : spell (gap.dropWhile (!·.isComment)) = [] ↔
      gap.dropWhile (!·.isComment) = [] := by
    constructor
    · intro hspell
      refine List.eq_nil_iff_forall_not_mem.mpr fun t ht => t.text_ne_nil ?_
      exact List.flatMap_eq_nil_iff.mp hspell t ht
    · intro hdrop
      rw [hdrop]
      rfl
  rw [hsplit, Text.byteSize_append, Nat.left_eq_add, Text.byteSize_eq_zero_iff, hnil,
    List.dropWhile_eq_nil_iff]
  simp

end Trivia

namespace SourceFile

/-- The end of a node's last modifier, or the start of a node without any. -/
def modifiersEnd (f : SourceFile) (n : Node) : Nat :=
  (((n.payload.modifiers.bind List.getLast?).bind f.arena.get?).map (·.stop)).getD n.start

/-- The first place after the modifiers that is not blank, when trivia and a token follow them. -/
theorem keywordStart_eq {f : SourceFile} {n : Node} {before token : Text} {gap : List Trivia}
    (htext : f.text = before ++ (Trivia.spell gap ++ token))
    (hbefore : before.byteSize = f.modifiersEnd n) (htoken : token.takeWhile isBlank = []) :
    f.keywordStart n = Text.byteSize (before ++ Trivia.spell (Trivia.blanksOf gap)) := by
  have hstart : f.keywordStart n = f.modifiersEnd n +
      Text.byteSize (((f.text.dropBytes? (f.modifiersEnd n)).getD []).takeWhile isBlank) := rfl
  rw [hstart, ← hbefore, htext, Text.dropBytes?_append, Option.getD_some,
    Trivia.takeWhile_isBlank_spell gap htoken, Text.byteSize_append]

end SourceFile

namespace FileContext

variable {c : FileContext} {s : Session} {i : Nat} {d : Noted Opened}

/-- The question that goes with a declaration is put when its range is written. -/
theorem question_of_declaration (document : Nat) (hd : (c.declarations s)[i]? = some d) :
    ((c.index document).run s).2.journal.ranges[s.journal.ranges.length + i]? =
        some (c.rangeEntry d) ∧
      ((c.index document).run s).2.journal.referenceQueries[
        s.journal.referenceQueries.length + i]? = some (c.question d) := by
  rw [c.index_ranges, c.index_questions]
  simp [List.getElem?_append_right, hd]

/-- References to a constructor are asked for behind the blanks that follow its modifiers. Where
nothing but trivia stands between these and its keyword, that is at the keyword exactly if there is
no comment among them, and at the first comment otherwise. -/
theorem constructor_asked_at_keyword_iff (document : Nat)
    (hd : (c.declarations s)[i]? = some d) (hkind : d.node.kind = .constructor)
    {before after : Text} {gap : List Trivia}
    (htext : c.file.text = before ++ (Trivia.spell gap ++ ("constructor".toList ++ after)))
    (hbefore : before.byteSize = c.file.modifiersEnd d.node) :
    ∃ offset,
      ((c.index document).run s).2.journal.ranges[s.journal.ranges.length + i]? =
        some (c.rangeEntry d) ∧
      ((c.index document).run s).2.journal.referenceQueries[
        s.journal.referenceQueries.length + i]? = some (c.file.name, offset) ∧
      offset = Text.byteSize (before ++ Trivia.spell (Trivia.blanksOf gap)) ∧
      (offset = Text.byteSize (before ++ Trivia.spell gap) ↔
        ∀ t ∈ gap, t.isComment = false) := by
  obtain ⟨hrange, hquestion⟩ := question_of_declaration document hd
  have htoken : ("constructor".toList ++ after).takeWhile isBlank = [] :=
    List.takeWhile_cons_of_neg (by decide)
  have hoffset : c.file.referenceOffset d.node =
      Text.byteSize (before ++ Trivia.spell (Trivia.blanksOf gap)) := by
    rw [SourceFile.referenceOffset, if_pos hkind]
    exact SourceFile.keywordStart_eq htext hbefore htoken
  refine ⟨c.file.referenceOffset d.node, hrange, hquestion, hoffset, ?_⟩
  rw [hoffset, Text.byteSize_append, Text.byteSize_append, Nat.add_left_cancel_iff]
  exact Trivia.byteSize_spell_blanksOf_eq_iff

/-- A class with a private constructor, after whose modifier this gap is left. -/
def privateConstructor (gap : String) : FileContext where
  world := ⟨⟨#[file]⟩, .none⟩
  options := {}
  fileId := 0
  file
where
  /-- The end of the constructor. -/
  stop : Nat := 15 + Text.byteSize gap.toList + 15
  file : SourceFile :=
    { name := "a.ts"
      text := "class A\x7bprivate".toList ++ (gap.toList ++ "constructor()\x7b\x7d\x7d".toList)
      arena := (((((Arena.empty.add .privateKeyword 8 15 .bare).add .block (stop - 2) stop
        (.statement (.block []))).add .constructor 8 stop
        (.declaration (.constructor (some [some 0]) none [] (some 1)))).add .identifier 6 7
        (.identifier "A")).add .classDeclaration 0 (stop + 1)
        (.declaration (.classLike none (some 3) none none [some 2]))).add .sourceFile 0 (stop + 1)
        (.sourceFile [some 4] "a.ts" .ts false)
      root := some 5 }

/-- A blank of two bytes, a line break and a blank of three bytes are passed over. -/
theorem privateConstructor_asked_at_keyword :
    let c := privateConstructor "\u00a0\n\u2003"
    let gap : List Trivia := [.blank '\u00a0' rfl, .blank '\n' rfl, .blank '\u2003' rfl]
    ∃ d, (c.declarations {})[1]? = some d ∧ d.node.kind = .constructor ∧
      c.file.text = "class A\x7bprivate".toList ++
        (Trivia.spell gap ++ ("constructor".toList ++ "()\x7b\x7d\x7d".toList)) ∧
      Text.byteSize "class A\x7bprivate".toList = c.file.modifiersEnd d.node ∧
      Text.byteSize ("class A\x7bprivate".toList ++ Trivia.spell gap) = 21 ∧
      ((c.index 1).run {}).2.journal.referenceQueries[1]? = some ("a.ts", 21) := by
  intro c gap
  have hdeclared : (c.declarations {})[1]?.map
      (fun d => (d.node.kind, c.file.modifiersEnd d.node)) = some (.constructor, 15) := by
    decide +kernel
  obtain ⟨d, hd, hnode⟩ := Option.map_eq_some_iff.mp hdeclared
  obtain ⟨hkind, hend⟩ := Prod.mk.inj hnode
  have htext : c.file.text = "class A\x7bprivate".toList ++
      (Trivia.spell gap ++ ("constructor".toList ++ "()\x7b\x7d\x7d".toList)) := by
    decide +kernel
  have hbefore : Text.byteSize "class A\x7bprivate".toList = c.file.modifiersEnd d.node := by
    rw [hend]
    decide +kernel
  have hsize : Text.byteSize ("class A\x7bprivate".toList ++ Trivia.spell gap) = 21 := by
    decide +kernel
  obtain ⟨offset, -, hquestion, -, hoffset⟩ :=
    constructor_asked_at_keyword_iff 1 hd hkind htext hbefore
  have hkeyword := hoffset.mpr (by decide)
  rw [hkeyword, hsize] at hquestion
  exact ⟨d, hd, hkind, htext, hbefore, hsize, hquestion⟩

/-- With a comment in the gap, the question is put at the comment and not at the keyword. -/
theorem privateConstructor_asked_at_comment :
    let c := privateConstructor " /**/ "
    let gap : List Trivia := [.blank ' ' rfl,
      .blockComment [] fun hclosed => List.cons_ne_nil _ _ (List.infix_nil.mp hclosed),
      .blank ' ' rfl]
    ∃ d, (c.declarations {})[1]? = some d ∧ d.node.kind = .constructor ∧
      c.file.text = "class A\x7bprivate".toList ++
        (Trivia.spell gap ++ ("constructor".toList ++ "()\x7b\x7d\x7d".toList)) ∧
      Text.byteSize "class A\x7bprivate".toList = c.file.modifiersEnd d.node ∧
      Text.byteSize ("class A\x7bprivate".toList ++ Trivia.spell gap) = 21 ∧
      ((c.index 1).run {}).2.journal.referenceQueries[1]? = some ("a.ts", 16) := by
  intro c gap
  have hdeclared : (c.declarations {})[1]?.map
      (fun d => (d.node.kind, c.file.modifiersEnd d.node)) = some (.constructor, 15) := by
    decide +kernel
  obtain ⟨d, hd, hnode⟩ := Option.map_eq_some_iff.mp hdeclared
  obtain ⟨hkind, hend⟩ := Prod.mk.inj hnode
  refine ⟨d, hd, hkind, ?_, ?_, ?_, ?_⟩
  · decide +kernel
  · rw [hend]
    decide +kernel
  · decide +kernel
  · decide +kernel

end FileContext

end SourceIndex
