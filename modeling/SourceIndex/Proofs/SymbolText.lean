import Mathlib.Data.List.Basic
import SourceIndex.Symbol

/-! What can be read off the text of a symbol. A name can be read back from its quoted form. A name
and a number that are written one after the other cannot be told apart when the name ends in
digits. -/

namespace SourceIndex

namespace Descriptor

theorem flatMap_tick_injective {as bs : List Char}
    (h : as.flatMap (fun c => if c = tick then [c, c] else [c]) =
      bs.flatMap (fun c => if c = tick then [c, c] else [c])) : as = bs := by
  induction as generalizing bs with
  | nil =>
    cases bs with
    | nil => rfl
    | cons b bs => by_cases hb : b = tick <;> simp [hb] at h
  | cons a as ih =>
    cases bs with
    | nil => by_cases ha : a = tick <;> simp [ha] at h
    | cons b bs =>
      by_cases ha : a = tick <;> by_cases hb : b = tick
      · simp only [List.flatMap_cons, if_pos ha, if_pos hb, List.cons_append, List.nil_append,
          List.cons.injEq] at h
        rw [ha, hb, ih h.2.2]
      · simp only [List.flatMap_cons, if_pos ha, if_neg hb, List.cons_append, List.nil_append,
          List.cons.injEq] at h
        exact absurd (h.1.symm.trans ha) hb
      · simp only [List.flatMap_cons, if_neg ha, if_pos hb, List.cons_append, List.nil_append,
          List.cons.injEq] at h
        exact absurd (h.1.trans hb) ha
      · simp only [List.flatMap_cons, if_neg ha, if_neg hb, List.cons_append, List.nil_append,
          List.cons.injEq] at h
        rw [h.1, ih h.2]

/-- Whether a name stands as it is. -/
def IsPlain (name : String) : Prop := name.toList ≠ [] ∧ name.toList.all isPlainChar = true

theorem escape_of_isPlain {name : String} (h : IsPlain name) : escape name = name := by
  simp [escape, h.1, h.2]

theorem toList_escape_of_not_isPlain {name : String} (h : ¬ IsPlain name) :
    (escape name).toList = tick ::
      (name.toList.flatMap (fun c => if c = tick then [c, c] else [c]) ++ [tick]) := by
  have hplain : ¬ ((!name.toList.isEmpty && name.toList.all isPlainChar) = true) := by
    simpa [IsPlain] using h
  rw [escape, if_neg hplain, String.toList_ofList]

theorem escape_ne_of_isPlain {a b : String} (ha : IsPlain a) (hb : ¬ IsPlain b) :
    escape a ≠ escape b := by
  intro h
  rw [escape_of_isPlain ha] at h
  have htick : tick ∈ a.toList := by
    rw [h, toList_escape_of_not_isPlain hb]
    simp
  exact absurd (List.all_eq_true.mp ha.2 tick htick) (by decide)

theorem escape_injective : Function.Injective escape := by
  intro a b h
  by_cases ha : IsPlain a <;> by_cases hb : IsPlain b
  · rwa [escape_of_isPlain ha, escape_of_isPlain hb] at h
  · exact absurd h (escape_ne_of_isPlain ha hb)
  · exact absurd h.symm (escape_ne_of_isPlain hb ha)
  · have hlist := congrArg String.toList h
    rw [toList_escape_of_not_isPlain ha, toList_escape_of_not_isPlain hb] at hlist
    have hquoted := List.append_cancel_right (List.cons.inj hlist).2
    exact String.toList_inj.mp (flatMap_tick_injective hquoted)

end Descriptor

/-- Below one owner, two keys share a symbol only when their names are the same. -/
theorem Symbol.extend_metadata_inj {owner : Symbol} {a b : String} :
    owner.extend ⟨.metadata, a⟩ = owner.extend ⟨.metadata, b⟩ ↔ a = b := by
  refine ⟨fun h => ?_, fun h => by rw [h]⟩
  have htext : owner.render ++ (Descriptor.escape a ++ ":") =
      owner.render ++ (Descriptor.escape b ++ ":") := Symbol.global.inj h
  have hname := (String.append_right_inj _).mp htext
  exact Descriptor.escape_injective ((String.append_left_inj _).mp hname)

theorem toString_injective {m n : Nat} (h : toString m = toString n) : m = n := by
  have hdigits := congrArg String.toList h
  rw [Nat.toString_eq_repr, Nat.toString_eq_repr, Nat.toList_repr, Nat.toList_repr] at hdigits
  calc m = Nat.ofDigitChars 10 (Nat.toDigits 10 m) 0 := Nat.ofDigitChars_ten_toDigits.symm
    _ = Nat.ofDigitChars 10 (Nat.toDigits 10 n) 0 := by rw [hdigits]
    _ = n := Nat.ofDigitChars_ten_toDigits

theorem eq_or_longer {a b : String} {m n : Nat} {digits : List Char}
    (hb : b.toList = a.toList ++ digits)
    (hm : (toString m).toList = digits ++ (toString n).toList) :
    (a = b ∧ m = n) ∨
      ∃ digits, digits ≠ "" ∧ b = a ++ digits ∧ toString m = digits ++ toString n := by
  by_cases hempty : digits = []
  · subst hempty
    rw [List.append_nil, String.toList_inj] at hb
    rw [List.nil_append, String.toList_inj] at hm
    exact .inl ⟨hb.symm, toString_injective hm⟩
  · refine .inr ⟨.ofList digits, ?_, ?_, ?_⟩
    · simpa using hempty
    · rw [← String.toList_inj, String.toList_append, String.toList_ofList, hb]
    · rw [← String.toList_inj, String.toList_append, String.toList_ofList, hm]

/-- Two names with a number each read the same when both agree, or when the digits that one name has
more are taken from the number of the other. -/
theorem append_toString_eq_iff {a b : String} {m n : Nat} :
    a ++ toString m = b ++ toString n ↔ (a = b ∧ m = n) ∨
      (∃ digits, digits ≠ "" ∧ b = a ++ digits ∧ toString m = digits ++ toString n) ∨
      ∃ digits, digits ≠ "" ∧ a = b ++ digits ∧ toString n = digits ++ toString m := by
  constructor
  · intro h
    have hlist := congrArg String.toList h
    rw [String.toList_append, String.toList_append] at hlist
    rcases List.append_eq_append_iff.mp hlist with ⟨digits, hb, hm⟩ | ⟨digits, ha, hn⟩
    · exact (eq_or_longer hb hm).imp_right .inl
    · rcases eq_or_longer ha hn with ⟨rfl, rfl⟩ | hlonger
      · exact .inl ⟨rfl, rfl⟩
      · exact .inr (.inr hlonger)
  · rintro (⟨rfl, rfl⟩ | ⟨digits, -, rfl, hm⟩ | ⟨digits, -, rfl, hn⟩)
    · rfl
    · rw [hm, String.append_assoc]
    · rw [hn, String.append_assoc]

end SourceIndex
