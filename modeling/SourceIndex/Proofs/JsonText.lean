import Mathlib.Data.List.Basic
import SourceIndex.Json.Write

/-! The text of a value. Strings and brackets are told from all else by their first character, and a
number or a word ends where its characters do, so a value can be read off the front of a text.
No text has a line break. -/

namespace SourceIndex.Json

/-- What a text shows of a value: numbers and words are known by their characters only. -/
inductive Shown where
  | atom (text : Text)
  | string (s : String)
  | array (items : List Shown)
  | object (members : List (String × Shown))

mutual

def shown : Json → Shown
  | null => .atom "null".toList
  | bool b => .atom (if b then "true" else "false").toList
  | number n => .atom (digits n)
  | float x => .atom (floatText x)
  | string s => .string s
  | array items => .array (shownItems items)
  | object members => .object (shownMembers members)

def shownItems : List Json → List Shown
  | [] => []
  | v :: vs => v.shown :: shownItems vs

def shownMembers : List (String × Json) → List (String × Shown)
  | [] => []
  | (k, v) :: ms => (k, v.shown) :: shownMembers ms

end

theorem shownItems_eq_map (vs : List Json) : shownItems vs = vs.map shown := by
  induction vs with
  | nil => rfl
  | cons v vs ih => rw [shownItems, ih, List.map_cons]

def isAtomChar (c : Char) : Bool := c.isAlphanum || c = '.' || c = '-'

def IsAtom (t : Text) : Prop := t ≠ [] ∧ ∀ c ∈ t, isAtomChar c = true

/-- No number or word goes on into this text. -/
def Delimited (rest : Text) : Prop := rest.takeWhile isAtomChar = []

theorem digits_injective : Function.Injective digits := by
  intro m n h
  have hread := congrArg (Nat.ofDigitChars 10 · 0) h
  simpa only [digits, Nat.ofDigitChars_ten_toDigits] using hread

theorem isAtomChar_of_mem_digits {n : Nat} {c : Char} (h : c ∈ digits n) : isAtomChar c = true := by
  have hdigit : c.isDigit = true := Nat.isDigit_of_mem_toDigits (by omega) (by omega) h
  simp [isAtomChar, Char.isAlphanum, hdigit]

theorem isAtom_of_all {t : Text} (hne : t ≠ []) (hall : t.all isAtomChar = true) : IsAtom t :=
  ⟨hne, List.all_eq_true.mp hall⟩

theorem isAtom_digits (n : Nat) : IsAtom (digits n) :=
  ⟨Nat.toDigits_ne_nil, fun _ => isAtomChar_of_mem_digits⟩

theorem isAtomChar_of_mem_integer {n : Int} {c : Char} (h : c ∈ integer n) :
    isAtomChar c = true := by
  rw [integer] at h
  split at h
  · rcases List.mem_cons.mp h with rfl | h
    · rfl
    · exact isAtomChar_of_mem_digits h
  · exact isAtomChar_of_mem_digits h

theorem isAtom_layoutDecimal (d : Decimal.Shortest) : IsAtom (layoutDecimal d) := by
  have hdigits : ∀ c ∈ digits d.digits, isAtomChar c = true := fun _ => isAtomChar_of_mem_digits
  have htake : ∀ (n : Nat), ∀ c ∈ (digits d.digits).take n, isAtomChar c = true :=
    fun n c hc => hdigits c (List.mem_of_mem_take hc)
  have hdrop : ∀ (n : Nat), ∀ c ∈ (digits d.digits).drop n, isAtomChar c = true :=
    fun n c hc => hdigits c (List.mem_of_mem_drop hc)
  have hzeros : ∀ (n : Nat), ∀ c ∈ List.replicate n '0', isAtomChar c = true := by
    intro n c hc
    rw [List.eq_of_mem_replicate hc]
    rfl
  have hexponent : ∀ (n : Int), ∀ c ∈ integer n, isAtomChar c = true :=
    fun n c => isAtomChar_of_mem_integer
  have hpoint : isAtomChar '.' = true := rfl
  have hzero : isAtomChar '0' = true := rfl
  have he : isAtomChar 'e' = true := rfl
  simp only [layoutDecimal]
  split_ifs
  all_goals
    refine ⟨by simp, ?_⟩
    simp only [List.mem_append, List.mem_cons, List.not_mem_nil, or_false]
    rintro c hc
    grind

theorem isAtom_floatText (x : Float) : IsAtom (floatText x) := by
  have hminus : ∀ {t : Text}, IsAtom t → IsAtom (['-'] ++ t) := by
    intro t ht
    refine ⟨List.cons_ne_nil _ _, fun c hc => ?_⟩
    rcases List.mem_cons.mp hc with rfl | hc
    · rfl
    · exact ht.2 c hc
  simp only [floatText]
  split_ifs
  · exact isAtom_of_all (List.cons_ne_nil _ _) rfl
  · exact isAtom_of_all (List.cons_ne_nil _ _) rfl
  · exact isAtom_of_all (List.cons_ne_nil _ _) rfl
  · exact hminus (isAtom_layoutDecimal _)
  · exact isAtom_layoutDecimal _

theorem IsAtom.append_inj {t t' rest rest' : Text} (ht : IsAtom t) (ht' : IsAtom t')
    (hrest : Delimited rest) (hrest' : Delimited rest') (h : t ++ rest = t' ++ rest') :
    t = t' ∧ rest = rest' := by
  have hfront := congrArg (List.takeWhile isAtomChar) h
  rw [List.takeWhile_append_of_pos ht.2, List.takeWhile_append_of_pos ht'.2, hrest, hrest',
    List.append_nil, List.append_nil] at hfront
  subst hfront
  exact ⟨rfl, List.append_cancel_left h⟩

def hexValue (c : Char) : Nat := if c.isDigit then c.toNat - 48 else c.toNat - 87

/-- The character at the front of the text of a string, and what follows it. -/
def unescape? : Text → Option (Char × Text)
  | [] => none
  | c :: t =>
    if c = '"' then none
    else if c = '\\' then
      match t with
      | 'b' :: t => some ('\x08', t)
      | 'f' :: t => some ('\x0c', t)
      | 'n' :: t => some ('\n', t)
      | 'r' :: t => some ('\r', t)
      | 't' :: t => some ('\t', t)
      | 'u' :: _ :: _ :: high :: low :: t =>
        some (Char.ofNat (16 * hexValue high + hexValue low), t)
      | c :: t => some (c, t)
      | [] => none
    else some (c, t)

theorem hexValue_hexDigit : ∀ n < 16, hexValue (hexDigit n) = n := by decide

theorem unescape?_escapeChar (c : Char) (t : Text) :
    unescape? (escapeChar c ++ t) = some (c, t) := by
  unfold escapeChar
  split_ifs with hquote hback hb hf hn hr ht hcontrol
  · rw [hquote]; rfl
  · rw [hback]; rfl
  · rw [hb]; rfl
  · rw [hf]; rfl
  · rw [hn]; rfl
  · rw [hr]; rfl
  · rw [ht]; rfl
  · have hhigh := hexValue_hexDigit (c.toNat / 16) (by omega)
    have hlow := hexValue_hexDigit (c.toNat % 16) (by omega)
    have hsum : 16 * (c.toNat / 16) + c.toNat % 16 = c.toNat := by omega
    simp [unescape?, hhigh, hlow, hsum]
  · simp [unescape?, hquote, hback]

/-- A string ends at the first quote that is not escaped. -/
theorem escaped_append_inj {cs cs' rest rest' : Text}
    (h : cs.flatMap escapeChar ++ '"' :: rest = cs'.flatMap escapeChar ++ '"' :: rest') :
    cs = cs' ∧ rest = rest' := by
  have hquote : ∀ t : Text, unescape? ('"' :: t) = none := fun t => rfl
  induction cs generalizing cs' with
  | nil =>
    cases cs' with
    | nil => exact ⟨rfl, (List.cons.inj h).2⟩
    | cons c' cs' =>
      rw [List.flatMap_nil, List.nil_append, List.flatMap_cons, List.append_assoc] at h
      have hread := congrArg unescape? h
      rw [hquote, unescape?_escapeChar] at hread
      cases hread
  | cons c cs ih =>
    rw [List.flatMap_cons, List.append_assoc] at h
    have hread := congrArg unescape? h
    rw [unescape?_escapeChar] at hread
    cases cs' with
    | nil =>
      rw [List.flatMap_nil, List.nil_append, hquote] at hread
      cases hread
    | cons c' cs' =>
      rw [List.flatMap_cons, List.append_assoc, unescape?_escapeChar] at hread
      obtain ⟨hc, htail⟩ := Prod.mk.inj (Option.some.inj hread)
      obtain ⟨hcs, hrest⟩ := ih htail
      exact ⟨by rw [hc, hcs], hrest⟩

theorem writeString_inj {s s' : String} {rest rest' : Text}
    (h : writeString s rest = writeString s' rest') : s = s' ∧ rest = rest' := by
  obtain ⟨hs, hrest⟩ := escaped_append_inj (List.cons.inj h).2
  exact ⟨String.toList_injective hs, hrest⟩

theorem IsAtom.head_ne {t rest rest' : Text} (ht : IsAtom t) {c : Char}
    (hc : isAtomChar c = false) :
    t ++ rest ≠ c :: rest' := by
  obtain ⟨hne, hall⟩ := ht
  cases t with
  | nil => exact absurd rfl hne
  | cons d t =>
    intro h
    have hd := hall d List.mem_cons_self
    rw [(List.cons.inj h).1, hc] at hd
    cases hd

/-- The character that opens the text of a value, unless that is a number or a word. -/
def opening? : Json → Option Char
  | string _ => some '"'
  | array _ => some '['
  | object _ => some '\x7b'
  | _ => none

theorem write_of_opening {v : Json} {c : Char} (h : v.opening? = some c) (rest : Text) :
    ∃ t, v.write rest = c :: t := by
  cases v with
  | string s => exact ⟨_, congrArg (· :: _) (Option.some.inj h)⟩
  | array items =>
    obtain rfl := Option.some.inj h
    cases items <;> exact ⟨_, rfl⟩
  | object members =>
    obtain rfl := Option.some.inj h
    cases members <;> exact ⟨_, rfl⟩
  | _ => cases h

theorem write_of_opening_none {v : Json} (h : v.opening? = none) :
    ∃ t, IsAtom t ∧ v.shown = .atom t ∧ ∀ rest, v.write rest = t ++ rest := by
  cases v with
  | null => exact ⟨_, isAtom_of_all (List.cons_ne_nil _ _) rfl, rfl, fun _ => rfl⟩
  | bool b =>
    refine ⟨_, ?_, rfl, fun _ => rfl⟩
    cases b <;> exact isAtom_of_all (List.cons_ne_nil _ _) rfl
  | number n => exact ⟨_, isAtom_digits n, rfl, fun _ => rfl⟩
  | float x => exact ⟨_, isAtom_floatText x, rfl, fun _ => rfl⟩
  | _ => cases h

theorem opening_of_write {v : Json} {c : Char} {rest t : Text} (hc : isAtomChar c = false)
    (h : v.write rest = c :: t) : v.opening? = some c := by
  cases hopening : v.opening? with
  | none =>
    obtain ⟨t', ht', -, hwrite⟩ := write_of_opening_none hopening
    exact absurd (hwrite rest ▸ h) (ht'.head_ne hc)
  | some c' =>
    obtain ⟨t', ht'⟩ := write_of_opening hopening rest
    rw [(List.cons.inj (ht'.symm.trans h)).1]

theorem eq_string_of_write {v : Json} {rest t : Text} (h : v.write rest = '"' :: t) :
    ∃ s, v = .string s := by
  have hopening := opening_of_write (by decide) h
  cases v <;> simp [opening?] at hopening ⊢

theorem eq_array_of_write {v : Json} {rest t : Text} (h : v.write rest = '[' :: t) :
    ∃ items, v = .array items := by
  have hopening := opening_of_write (by decide) h
  cases v <;> simp [opening?] at hopening ⊢

theorem eq_object_of_write {v : Json} {rest t : Text} (h : v.write rest = '\x7b' :: t) :
    ∃ members, v = .object members := by
  have hopening := opening_of_write (by decide) h
  cases v <;> simp [opening?] at hopening ⊢

theorem write_ne_bracket (v : Json) (rest t : Text) : v.write rest ≠ ']' :: t := by
  intro h
  have hopening := opening_of_write (by decide) h
  cases v <;> simp [opening?] at hopening

theorem delimited_writeItems (vs : List Json) (rest : Text) : Delimited (writeItems vs rest) := by
  cases vs with
  | nil => rfl
  | cons v vs => rfl

theorem delimited_writeMembers (ms : List (String × Json)) (rest : Text) :
    Delimited (writeMembers ms rest) := by
  cases ms with
  | nil => rfl
  | cons m ms => rfl

theorem write_inj_of_atom {v v' : Json} {rest rest' : Text} (hv : v.opening? = none)
    (hrest : Delimited rest) (hrest' : Delimited rest') (h : v.write rest = v'.write rest') :
    v.shown = v'.shown ∧ rest = rest' := by
  obtain ⟨t, ht, hshown, hwrite⟩ := write_of_opening_none hv
  rw [hwrite] at h
  cases hv' : v'.opening? with
  | some c =>
    obtain ⟨t', ht'⟩ := write_of_opening hv' rest'
    have hc : isAtomChar c = false := by
      cases v' <;> cases hv' <;> decide
    exact absurd (h.trans ht') (ht.head_ne hc)
  | none =>
    obtain ⟨t', ht', hshown', hwrite'⟩ := write_of_opening_none hv'
    rw [hwrite'] at h
    obtain ⟨rfl, htail⟩ := ht.append_inj ht' hrest hrest' h
    exact ⟨hshown.trans hshown'.symm, htail⟩

mutual

/-- A value is read off the front of a text, and so is all that follows it. -/
theorem write_inj : ∀ (v v' : Json) {rest rest' : Text}, Delimited rest → Delimited rest' →
    v.write rest = v'.write rest' → v.shown = v'.shown ∧ rest = rest'
  | null, v', _, _, hrest, hrest', h => write_inj_of_atom rfl hrest hrest' h
  | bool b, v', _, _, hrest, hrest', h => write_inj_of_atom rfl hrest hrest' h
  | number n, v', _, _, hrest, hrest', h => write_inj_of_atom rfl hrest hrest' h
  | float x, v', _, _, hrest, hrest', h => write_inj_of_atom rfl hrest hrest' h
  | string s, v', _, _, _, _, h => by
    obtain ⟨s', rfl⟩ := eq_string_of_write h.symm
    obtain ⟨rfl, htail⟩ := writeString_inj h
    exact ⟨rfl, htail⟩
  | array items, v', rest, rest', _, _, h => by
    obtain ⟨t, ht⟩ := write_of_opening (v := array items) rfl rest
    obtain ⟨items', rfl⟩ := eq_array_of_write (h.symm.trans ht)
    cases items with
    | nil =>
      cases items' with
      | nil => exact ⟨rfl, (List.cons.inj (List.cons.inj h).2).2⟩
      | cons w ws => exact absurd (List.cons.inj h).2.symm (write_ne_bracket w _ _)
    | cons v vs =>
      cases items' with
      | nil => exact absurd (List.cons.inj h).2 (write_ne_bracket v _ _)
      | cons w ws =>
        obtain ⟨hfirst, htail⟩ := write_inj v w (delimited_writeItems vs rest)
          (delimited_writeItems ws rest') (List.cons.inj h).2
        obtain ⟨hrest, hend⟩ := writeItems_inj vs ws htail
        exact ⟨by rw [shown, shown, shownItems, shownItems, hfirst, hrest], hend⟩
  | object members, v', rest, rest', _, _, h => by
    obtain ⟨t, ht⟩ := write_of_opening (v := object members) rfl rest
    obtain ⟨members', rfl⟩ := eq_object_of_write (h.symm.trans ht)
    cases members with
    | nil =>
      cases members' with
      | nil => exact ⟨rfl, (List.cons.inj (List.cons.inj h).2).2⟩
      | cons m ms => exact absurd (List.cons.inj (List.cons.inj h).2).1 (by decide)
    | cons m ms =>
      obtain ⟨k, v⟩ := m
      cases members' with
      | nil => exact absurd (List.cons.inj (List.cons.inj h).2).1 (by decide)
      | cons m' ms' =>
        obtain ⟨k', v'⟩ := m'
        obtain ⟨hkey, htail⟩ := writeString_inj (List.cons.inj h).2
        obtain ⟨hfirst, htail⟩ := write_inj v v' (delimited_writeMembers ms rest)
          (delimited_writeMembers ms' rest') (List.cons.inj htail).2
        obtain ⟨hrest, hend⟩ := writeMembers_inj ms ms' htail
        exact ⟨by rw [shown, shown, shownMembers, shownMembers, hkey, hfirst, hrest], hend⟩

theorem writeItems_inj : ∀ (vs vs' : List Json) {rest rest' : Text},
    writeItems vs rest = writeItems vs' rest' → shownItems vs = shownItems vs' ∧ rest = rest'
  | [], [], _, _, h => ⟨rfl, (List.cons.inj h).2⟩
  | [], _ :: _, _, _, h => absurd (List.cons.inj h).1 (by decide)
  | _ :: _, [], _, _, h => absurd (List.cons.inj h).1 (by decide)
  | v :: vs, v' :: vs', rest, rest', h => by
    obtain ⟨hfirst, htail⟩ := write_inj v v' (delimited_writeItems vs rest)
      (delimited_writeItems vs' rest') (List.cons.inj h).2
    obtain ⟨hrest, hend⟩ := writeItems_inj vs vs' htail
    exact ⟨by rw [shownItems, shownItems, hfirst, hrest], hend⟩

theorem writeMembers_inj : ∀ (ms ms' : List (String × Json)) {rest rest' : Text},
    writeMembers ms rest = writeMembers ms' rest' →
      shownMembers ms = shownMembers ms' ∧ rest = rest'
  | [], [], _, _, h => ⟨rfl, (List.cons.inj h).2⟩
  | [], _ :: _, _, _, h => absurd (List.cons.inj h).1 (by decide)
  | _ :: _, [], _, _, h => absurd (List.cons.inj h).1 (by decide)
  | (k, v) :: ms, (k', v') :: ms', rest, rest', h => by
    obtain ⟨hkey, htail⟩ := writeString_inj (List.cons.inj h).2
    obtain ⟨hfirst, htail⟩ := write_inj v v' (delimited_writeMembers ms rest)
      (delimited_writeMembers ms' rest') (List.cons.inj htail).2
    obtain ⟨hrest, hend⟩ := writeMembers_inj ms ms' htail
    exact ⟨by rw [shownMembers, shownMembers, hkey, hfirst, hrest], hend⟩

end

theorem shown_eq_of_render {v v' : Json} (h : v.render = v'.render) : v.shown = v'.shown := by
  have hend : Delimited [] := rfl
  exact (write_inj v v' hend hend h).1

theorem newline_not_mem_write_of_atom {v : Json} {rest : Text} (hv : v.opening? = none)
    (h : '\n' ∉ rest) : '\n' ∉ v.write rest := by
  obtain ⟨t, ht, -, hwrite⟩ := write_of_opening_none hv
  rw [hwrite]
  exact List.not_mem_append (fun hmem => absurd (ht.2 _ hmem) (by decide)) h

theorem newline_not_mem_escapeChar (c : Char) : '\n' ∉ escapeChar c := by
  have hhex : ∀ n < 16, '\n' ≠ hexDigit n := by decide
  unfold escapeChar
  split_ifs with hquote hback hb hf hn hr ht hcontrol
  all_goals try decide
  · have hhigh := hhex (c.toNat / 16) (by omega)
    have hlow := hhex (c.toNat % 16) (by omega)
    simp [hhigh, hlow]
  · rw [List.mem_singleton]
    exact fun h => hn h.symm

theorem newline_not_mem_writeString {s : String} {rest : Text} (h : '\n' ∉ rest) :
    '\n' ∉ writeString s rest := by
  have hchars : '\n' ∉ s.toList.flatMap escapeChar := by
    rw [List.mem_flatMap]
    rintro ⟨c, -, hc⟩
    exact newline_not_mem_escapeChar c hc
  simp [writeString, hchars, h]

mutual

theorem newline_not_mem_write : ∀ (v : Json) {rest : Text}, '\n' ∉ rest → '\n' ∉ v.write rest
  | null, rest, h => newline_not_mem_write_of_atom rfl h
  | bool b, rest, h => newline_not_mem_write_of_atom rfl h
  | number n, rest, h => newline_not_mem_write_of_atom rfl h
  | float x, rest, h => newline_not_mem_write_of_atom rfl h
  | string s, rest, h => newline_not_mem_writeString h
  | array [], rest, h => by simp [write, h]
  | array (v :: vs), rest, h =>
    List.not_mem_cons_of_ne_of_not_mem (by decide)
      (newline_not_mem_write v (newline_not_mem_writeItems vs h))
  | object [], rest, h => by simp [write, h]
  | object ((k, v) :: ms), rest, h =>
    List.not_mem_cons_of_ne_of_not_mem (by decide)
      (newline_not_mem_writeString (List.not_mem_cons_of_ne_of_not_mem (by decide)
        (newline_not_mem_write v (newline_not_mem_writeMembers ms h))))

theorem newline_not_mem_writeItems : ∀ (vs : List Json) {rest : Text}, '\n' ∉ rest →
    '\n' ∉ writeItems vs rest
  | [], rest, h => by simp [writeItems, h]
  | v :: vs, rest, h =>
    List.not_mem_cons_of_ne_of_not_mem (by decide)
      (newline_not_mem_write v (newline_not_mem_writeItems vs h))

theorem newline_not_mem_writeMembers : ∀ (ms : List (String × Json)) {rest : Text}, '\n' ∉ rest →
    '\n' ∉ writeMembers ms rest
  | [], rest, h => by simp [writeMembers, h]
  | (k, v) :: ms, rest, h =>
    List.not_mem_cons_of_ne_of_not_mem (by decide)
      (newline_not_mem_writeString (List.not_mem_cons_of_ne_of_not_mem (by decide)
        (newline_not_mem_write v (newline_not_mem_writeMembers ms h))))

end

theorem newline_not_mem_render (v : Json) : '\n' ∉ v.render :=
  newline_not_mem_write v List.not_mem_nil

end SourceIndex.Json
