import SourceIndex.Proofs.SymbolText

/-! Symbols can be read back from their text. No rendered descriptor is the beginning of another
one, so a chain of them is taken apart from the front; package and number come before the chain and
end with a character that no descriptor has there. -/

namespace SourceIndex

theorem append_cons_inj_of_class {p : Char → Bool} {as bs rest rest' : List Char} {a b : Char}
    (has : ∀ c ∈ as, p c = true) (hbs : ∀ c ∈ bs, p c = true) (ha : p a = false) (hb : p b = false)
    (h : as ++ a :: rest = bs ++ b :: rest') : as = bs ∧ a = b ∧ rest = rest' := by
  induction as generalizing bs with
  | nil =>
    cases bs with
    | nil =>
      obtain ⟨hhead, htail⟩ := List.cons.inj h
      exact ⟨rfl, hhead, htail⟩
    | cons c bs =>
      have hc : a = c := (List.cons.inj h).1
      have := hbs c (by simp)
      simp [← hc, ha] at this
  | cons c as ih =>
    cases bs with
    | nil =>
      have hc : c = b := (List.cons.inj h).1
      have := has c (by simp)
      simp [hc, hb] at this
    | cons d bs =>
      obtain ⟨rfl, htail⟩ := List.cons.inj h
      have hrest := ih (fun x hx => has x (by simp [hx])) (fun x hx => hbs x (by simp [hx])) htail
      exact ⟨by rw [hrest.1], hrest.2⟩

namespace Descriptor

def doubled (cs : List Char) : List Char :=
  cs.flatMap fun c => if c = tick then [c, c] else [c]

theorem doubled_cons_tick (cs : List Char) : doubled (tick :: cs) = tick :: tick :: doubled cs := by
  simp [doubled]

theorem doubled_cons_of_ne {c : Char} (h : c ≠ tick) (cs : List Char) :
    doubled (c :: cs) = c :: doubled cs := by
  simp [doubled, h]

/-- Between ticks a name ends at the first tick that is not doubled. -/
theorem doubled_append_inj {as bs rest rest' : List Char} {a b : Char} (ha : a ≠ tick)
    (hb : b ≠ tick) (h : doubled as ++ tick :: a :: rest = doubled bs ++ tick :: b :: rest') :
    as = bs ∧ a = b ∧ rest = rest' := by
  induction as generalizing bs with
  | nil =>
    cases bs with
    | nil => simpa [doubled] using h
    | cons c bs =>
      by_cases hc : c = tick
      · subst hc
        rw [doubled_cons_tick] at h
        exact absurd (List.cons.inj (List.cons.inj h).2).1 ha
      · rw [doubled_cons_of_ne hc] at h
        exact absurd (List.cons.inj h).1.symm hc
  | cons c as ih =>
    by_cases hc : c = tick
    · subst hc
      rw [doubled_cons_tick] at h
      cases bs with
      | nil => exact absurd (List.cons.inj (List.cons.inj h).2).1.symm hb
      | cons d bs =>
        by_cases hd : d = tick
        · subst hd
          rw [doubled_cons_tick] at h
          have hrest := ih (List.cons.inj (List.cons.inj h).2).2
          exact ⟨by rw [hrest.1], hrest.2⟩
        · rw [doubled_cons_of_ne hd] at h
          exact absurd (List.cons.inj h).1.symm hd
    · rw [doubled_cons_of_ne hc] at h
      cases bs with
      | nil => exact absurd (List.cons.inj h).1 hc
      | cons d bs =>
        by_cases hd : d = tick
        · subst hd
          rw [doubled_cons_tick] at h
          exact absurd (List.cons.inj h).1 hc
        · rw [doubled_cons_of_ne hd] at h
          obtain ⟨rfl, htail⟩ := List.cons.inj h
          have hrest := ih htail
          exact ⟨by rw [hrest.1], hrest.2⟩

/-- Can follow a name: neither a character of a plain name nor a tick. -/
def isMark (c : Char) : Bool := !isPlainChar c && c ≠ tick

theorem isMark_iff {c : Char} : isMark c = true ↔ isPlainChar c = false ∧ c ≠ tick := by
  simp [isMark]

theorem isPlainChar_of_mem {name : String} (h : IsPlain name) :
    ∀ c ∈ name.toList, isPlainChar c = true :=
  List.all_eq_true.mp h.2

theorem escape_append_inj {name name' : String} {a b : Char} {rest rest' : List Char}
    (ha : isMark a = true) (hb : isMark b = true)
    (h : (escape name).toList ++ a :: rest = (escape name').toList ++ b :: rest') :
    name = name' ∧ a = b ∧ rest = rest' := by
  rw [isMark_iff] at ha hb
  have htick : ∀ {plain quoted : String} {c d : Char} {r r' : List Char}, IsPlain plain →
      isPlainChar c = false → ¬ IsPlain quoted →
      (escape plain).toList ++ c :: r ≠ (escape quoted).toList ++ d :: r' := by
    intro plain quoted c d r r' hplain hc hquoted heq
    rw [escape_of_isPlain hplain, toList_escape_of_not_isPlain hquoted] at heq
    cases hchars : plain.toList with
    | nil => exact hplain.1 hchars
    | cons x xs =>
      rw [hchars] at heq
      have hx : x = tick := (List.cons.inj heq).1
      have hplainx := isPlainChar_of_mem hplain x (by simp [hchars])
      rw [hx] at hplainx
      exact absurd hplainx (by decide)
  by_cases hn : IsPlain name <;> by_cases hn' : IsPlain name'
  · rw [escape_of_isPlain hn, escape_of_isPlain hn'] at h
    have hread := append_cons_inj_of_class (isPlainChar_of_mem hn) (isPlainChar_of_mem hn') ha.1
      hb.1 h
    exact ⟨String.toList_inj.mp hread.1, hread.2⟩
  · exact absurd h (htick hn ha.1 hn')
  · exact absurd h.symm (htick hn' hb.1 hn)
  · rw [toList_escape_of_not_isPlain hn, toList_escape_of_not_isPlain hn'] at h
    simp only [List.cons_append, List.append_assoc, List.nil_append, List.cons.injEq, true_and] at h
    have hread := doubled_append_inj ha.2 hb.2 h
    exact ⟨String.toList_inj.mp hread.1, hread.2⟩

end Descriptor

namespace Role

def opening : Role → List Char
  | parameter => ['(']
  | typeParameter => ['[']
  | _ => []

/-- The first character after a name, and those that follow it. -/
def closing : Role → Char × List Char
  | scope => ('/', [])
  | type => ('#', [])
  | term => ('.', [])
  | method => ('(', [')', '.'])
  | parameter => (')', [])
  | typeParameter => (']', [])
  | metadata => (':', [])

theorem closing_isMark (r : Role) : Descriptor.isMark r.closing.1 = true := by
  cases r <;> decide

theorem eq_of_marks {r r' : Role} (hopening : r.opening = r'.opening)
    (hclosing : r.closing.1 = r'.closing.1) : r = r' := by
  cases r <;> cases r' <;> simp_all [opening, closing]

end Role

namespace Descriptor

theorem toList_render (d : Descriptor) :
    d.render.toList =
      d.role.opening ++ ((escape d.name).toList ++ d.role.closing.1 :: d.role.closing.2) := by
  cases hrole : d.role <;> simp [render, hrole, Role.opening, Role.closing]

theorem exists_cons_escape (name : String) :
    ∃ c cs, (escape name).toList = c :: cs ∧ c ≠ '(' ∧ c ≠ '[' := by
  by_cases h : IsPlain name
  · rw [escape_of_isPlain h]
    cases hchars : name.toList with
    | nil => exact absurd hchars h.1
    | cons c cs =>
      have hc := isPlainChar_of_mem h c (by simp [hchars])
      refine ⟨c, cs, rfl, ?_, ?_⟩
      · rintro rfl
        exact absurd hc (by decide)
      · rintro rfl
        exact absurd hc (by decide)
  · rw [toList_escape_of_not_isPlain h]
    exact ⟨tick, _, rfl, by decide, by decide⟩

theorem opening_append_inj {r r' : Role} {name name' : String} {rest rest' : List Char}
    (h : r.opening ++ ((escape name).toList ++ rest) =
      r'.opening ++ ((escape name').toList ++ rest')) :
    r.opening = r'.opening ∧ (escape name).toList ++ rest = (escape name').toList ++ rest' := by
  obtain ⟨c, cs, hcs, hc⟩ := exists_cons_escape name
  obtain ⟨c', cs', hcs', hc'⟩ := exists_cons_escape name'
  have hopening : r.opening = r'.opening := by
    rw [hcs, hcs'] at h
    cases r <;> cases r' <;> grind [Role.opening]
  rw [hopening] at h
  exact ⟨hopening, List.append_cancel_left h⟩

/-- No rendered descriptor is the beginning of another one. -/
theorem render_append_inj {d d' : Descriptor} {rest rest' : List Char}
    (h : d.render.toList ++ rest = d'.render.toList ++ rest') : d = d' ∧ rest = rest' := by
  rw [toList_render, toList_render] at h
  simp only [List.append_assoc, List.cons_append] at h
  obtain ⟨hopening, hname⟩ := opening_append_inj h
  obtain ⟨hname, hmark, hrest⟩ :=
    escape_append_inj d.role.closing_isMark d'.role.closing_isMark hname
  have hrole : d.role = d'.role := Role.eq_of_marks hopening hmark
  rw [hrole] at hrest
  refine ⟨?_, List.append_cancel_left hrest⟩
  obtain ⟨role, name⟩ := d
  obtain ⟨role', name'⟩ := d'
  rw [Descriptor.mk.injEq]
  exact ⟨hrole, hname⟩

def renderAll (ds : List Descriptor) : List Char := ds.flatMap fun d => d.render.toList

theorem render_ne_nil (d : Descriptor) : d.render.toList ≠ [] := by
  rw [toList_render]
  simp

theorem renderAll_injective : Function.Injective renderAll := by
  intro ds ds' h
  induction ds generalizing ds' with
  | nil =>
    cases ds' with
    | nil => rfl
    | cons d' ds' =>
      have hnil : d'.render.toList = [] := (List.append_eq_nil_iff.mp h.symm).1
      exact absurd hnil (render_ne_nil d')
  | cons d ds ih =>
    cases ds' with
    | nil =>
      have hnil : d.render.toList = [] := (List.append_eq_nil_iff.mp h).1
      exact absurd hnil (render_ne_nil d)
    | cons d' ds' =>
      obtain ⟨rfl, hrest⟩ := render_append_inj h
      rw [ih hrest]

theorem plain_space_ne_render {word rest rest' : List Char} (d : Descriptor) (hne : word ≠ [])
    (hword : word.all isPlainChar = true) :
    word ++ ' ' :: rest ≠ d.render.toList ++ rest' := by
  intro h
  have hplain : IsPlain (.ofList word) := by
    refine ⟨by simpa using hne, ?_⟩
    rw [String.toList_ofList]
    exact hword
  have hescape : (escape (.ofList word)).toList = word := by
    rw [escape_of_isPlain hplain, String.toList_ofList]
  rw [toList_render, ← hescape] at h
  simp only [List.append_assoc, List.cons_append] at h
  obtain ⟨-, hname⟩ := opening_append_inj (r := .term) h
  obtain ⟨-, hmark, -⟩ := escape_append_inj (by decide) d.role.closing_isMark hname
  revert hmark
  cases d.role <;> decide

end Descriptor

/-- A name or a version as it can stand in a package's symbol. -/
structure PackagePart where
  text : String
  nonempty : text ≠ ""
  noSpace : ' ' ∉ text.toList

/-- What a symbol is made of: nothing, a number, or a chain of descriptors that may begin at a
package. -/
inductive SymbolParts where
  | empty
  | fileLocal (n : Nat)
  | bare (first : Descriptor) (rest : List Descriptor)
  | packaged (name version : PackagePart) (descriptors : List Descriptor)

namespace SymbolParts

def symbol : SymbolParts → Symbol
  | empty => .empty
  | fileLocal n => .fileLocal n
  | bare first rest => (first :: rest).foldl Symbol.extend .empty
  | packaged name version descriptors =>
    descriptors.foldl Symbol.extend (.package name.text version.text)

theorem toList_render_foldl (owner : Symbol) (ds : List Descriptor) :
    (ds.foldl Symbol.extend owner).render.toList =
      owner.render.toList ++ Descriptor.renderAll ds := by
  induction ds generalizing owner with
  | nil => simp [Descriptor.renderAll]
  | cons d ds ih =>
    rw [List.foldl_cons, ih]
    simp [Symbol.extend, Symbol.render, Descriptor.renderAll]

theorem toList_fileLocal (n : Nat) :
    (fileLocal n).symbol.render.toList = "local".toList ++ ' ' :: (toString n).toList := by
  simp [symbol, Symbol.render]

theorem toList_bare (first : Descriptor) (rest : List Descriptor) :
    (bare first rest).symbol.render.toList =
      first.render.toList ++ Descriptor.renderAll rest := by
  rw [symbol, toList_render_foldl]
  simp [Symbol.render, Descriptor.renderAll]

theorem toList_packaged (name version : PackagePart) (ds : List Descriptor) :
    (packaged name version ds).symbol.render.toList =
      "lsif-ts".toList ++ ' ' :: ("npm".toList ++ ' ' :: (name.text.toList ++ ' ' ::
        (version.text.toList ++ ' ' :: Descriptor.renderAll ds))) := by
  rw [symbol, toList_render_foldl]
  simp [Symbol.package, Symbol.render, name.nonempty, version.nonempty]

theorem package_append_inj {a b : PackagePart} {rest rest' : List Char}
    (h : a.text.toList ++ ' ' :: rest = b.text.toList ++ ' ' :: rest') : a = b ∧ rest = rest' := by
  have hclass : ∀ part : PackagePart, ∀ c ∈ part.text.toList, (c != ' ') = true := by
    intro part c hc
    rw [bne_iff_ne]
    rintro rfl
    exact part.noSpace hc
  obtain ⟨htext, -, hrest⟩ := append_cons_inj_of_class (hclass a) (hclass b) rfl rfl h
  refine ⟨?_, hrest⟩
  obtain ⟨text, _, _⟩ := a
  obtain ⟨text', _, _⟩ := b
  rw [PackagePart.mk.injEq]
  exact String.toList_inj.mp htext

theorem packaged_inj {name name' version version' : PackagePart} {ds ds' : List Descriptor}
    (h : (packaged name version ds).symbol.render.toList =
      (packaged name' version' ds').symbol.render.toList) :
    name = name' ∧ version = version' ∧ ds = ds' := by
  rw [toList_packaged, toList_packaged] at h
  have hname := (List.cons.inj (List.append_cancel_left
    (List.cons.inj (List.append_cancel_left h)).2)).2
  obtain ⟨rfl, hversion⟩ := package_append_inj hname
  obtain ⟨rfl, hchain⟩ := package_append_inj hversion
  exact ⟨rfl, rfl, Descriptor.renderAll_injective hchain⟩

theorem toList_ne_nil {p : SymbolParts} (h : p ≠ empty) : p.symbol.render.toList ≠ [] := by
  cases p with
  | empty => exact absurd rfl h
  | fileLocal n =>
    rw [toList_fileLocal]
    simp
  | bare first rest =>
    rw [toList_bare]
    exact List.append_ne_nil_of_left_ne_nil first.render_ne_nil _
  | packaged name version ds =>
    rw [toList_packaged]
    simp

theorem fileLocal_ne_packaged (n : Nat) (name version : PackagePart) (ds : List Descriptor) :
    (fileLocal n).symbol.render.toList ≠ (packaged name version ds).symbol.render.toList := by
  rw [toList_fileLocal, toList_packaged]
  intro h
  have hsecond : 'o' = 's' := (List.cons.inj (List.cons.inj h).2).1
  exact absurd hsecond (by decide)

theorem fileLocal_ne_bare (n : Nat) (first : Descriptor) (rest : List Descriptor) :
    (fileLocal n).symbol.render.toList ≠ (bare first rest).symbol.render.toList := by
  rw [toList_fileLocal, toList_bare]
  exact first.plain_space_ne_render (by decide) (by decide)

theorem packaged_ne_bare (name version : PackagePart) (ds : List Descriptor) (first : Descriptor)
    (rest : List Descriptor) :
    (packaged name version ds).symbol.render.toList ≠ (bare first rest).symbol.render.toList := by
  rw [toList_packaged, toList_bare]
  exact first.plain_space_ne_render (by decide) (by decide)

/-- All that a symbol is made of can be read off its text: whether it is empty, local or global,
its number, its package and every descriptor with its kind and its name. -/
theorem text_determines_parts : Function.Injective fun p : SymbolParts => p.symbol.render := by
  intro p q h
  have htext : p.symbol.render.toList = q.symbol.render.toList := congrArg String.toList h
  cases p with
  | empty =>
    cases q with
    | empty => rfl
    | fileLocal n => exact absurd htext.symm (toList_ne_nil (by simp))
    | bare first rest => exact absurd htext.symm (toList_ne_nil (by simp))
    | packaged name version ds => exact absurd htext.symm (toList_ne_nil (by simp))
  | fileLocal n =>
    cases q with
    | empty => exact absurd htext (toList_ne_nil (by simp))
    | fileLocal n' =>
      rw [toList_fileLocal, toList_fileLocal] at htext
      have hdigits := (List.cons.inj (List.append_cancel_left htext)).2
      rw [toString_injective (String.toList_inj.mp hdigits)]
    | bare first rest => exact absurd htext (fileLocal_ne_bare n first rest)
    | packaged name version ds => exact absurd htext (fileLocal_ne_packaged n name version ds)
  | bare first rest =>
    cases q with
    | empty => exact absurd htext (toList_ne_nil (by simp))
    | fileLocal n => exact absurd htext.symm (fileLocal_ne_bare n first rest)
    | bare first' rest' =>
      rw [toList_bare, toList_bare] at htext
      obtain ⟨rfl, hrest⟩ := Descriptor.render_append_inj htext
      rw [Descriptor.renderAll_injective hrest]
    | packaged name version ds =>
      exact absurd htext.symm (packaged_ne_bare name version ds first rest)
  | packaged name version ds =>
    cases q with
    | empty => exact absurd htext (toList_ne_nil (by simp))
    | fileLocal n => exact absurd htext.symm (fileLocal_ne_packaged n name version ds)
    | bare first rest => exact absurd htext (packaged_ne_bare name version ds first rest)
    | packaged name' version' ds' =>
      obtain ⟨rfl, rfl, rfl⟩ := packaged_inj htext
      rfl

end SymbolParts

end SourceIndex
