import Mathlib.Data.List.Basic
import SourceIndex.Proofs.JsonText
import SourceIndex.Proofs.Deliveries

/-! One line for each entry. No line has a line break within, and a line tells all of its entry
except for the measures that are no whole numbers, of which it tells the printed digits. -/

namespace SourceIndex

/-- The measures are the same, those that are no whole numbers as far as they are printed. -/
structure Metrics.PrintsAs (m m' : Metrics) : Prop where
  operandsTotal : m.operandsTotal = m'.operandsTotal
  operatorsTotal : m.operatorsTotal = m'.operatorsTotal
  operandsDistinct : m.operandsDistinct = m'.operandsDistinct
  operatorsDistinct : m.operatorsDistinct = m'.operatorsDistinct
  vocabulary : m.vocabulary = m'.vocabulary
  length : m.length = m'.length
  volume : m.volume = m'.volume
  difficulty : Json.floatText m.difficulty = Json.floatText m'.difficulty
  effort : Json.floatText m.effort = Json.floatText m'.effort
  timeRequired : Json.floatText m.timeRequired = Json.floatText m'.timeRequired
  deliveredBugs : Json.floatText m.deliveredBugs = Json.floatText m'.deliveredBugs
  estimatedLength : Json.floatText m.estimatedLength = Json.floatText m'.estimatedLength

/-- The elements are equal, except that measures need only be printed alike. -/
inductive Element.PrintsAs : Element → Element → Prop
  | refl (e : Element) : PrintsAs e e
  | complexity (component : Nat) {m m' : Metrics} (h : m.PrintsAs m') :
      PrintsAs (.complexity component m) (.complexity component m')

structure Entry.PrintsAs (e e' : Entry) : Prop where
  id : e.id = e'.id
  type : e.type = e'.type
  element : e.element.PrintsAs e'.element

open Json (shown shownItems shownMembers)

theorem Json.number_shown_injective : Function.Injective fun n => (Json.number n).shown :=
  fun _ _ h => Json.digits_injective (Json.Shown.atom.inj h)

theorem Position.toJson_inj {p p' : Position} (h : p.toJson.shown = p'.toJson.shown) : p = p' := by
  obtain ⟨line, character⟩ := p
  obtain ⟨line', character'⟩ := p'
  simp only [Position.toJson, shown, shownMembers, Json.Shown.object.injEq, List.cons.injEq,
    Prod.mk.injEq, Json.Shown.atom.injEq, true_and, and_true] at h
  rw [Json.digits_injective h.1, Json.digits_injective h.2]

theorem Range.eq_of_shown {r r' : Range} (hstart : r.start.toJson.shown = r'.start.toJson.shown)
    (hstop : r.stop.toJson.shown = r'.stop.toJson.shown) : r = r' := by
  obtain ⟨start, stop⟩ := r
  obtain ⟨start', stop'⟩ := r'
  obtain rfl : start = start' := Position.toJson_inj hstart
  obtain rfl : stop = stop' := Position.toJson_inj hstop
  rfl

theorem Metrics.toJson_inj {m m' : Metrics} (h : m.toJson.shown = m'.toJson.shown) :
    m.PrintsAs m' := by
  simp only [Metrics.toJson, shown, shownMembers, Json.Shown.object.injEq, List.cons.injEq,
    Prod.mk.injEq, Json.Shown.atom.injEq, true_and, and_true] at h
  obtain ⟨hoperands, hoperators, hdistinct, hdistinct', hvocabulary, hlength, hvolume, hfloats⟩ := h
  obtain ⟨hdifficulty, heffort, htime, hbugs, hestimate⟩ := hfloats
  exact ⟨Json.digits_injective hoperands, Json.digits_injective hoperators,
    Json.digits_injective hdistinct, Json.digits_injective hdistinct',
    Json.digits_injective hvocabulary, Json.digits_injective hlength, Json.digits_injective hvolume,
    hdifficulty, heffort, htime, hbugs, hestimate⟩

mutual

theorem Outline.toJson_inj : ∀ (o o' : Outline), o.toJson.shown = o'.toJson.shown → o = o'
  | .node id children, .node id' children', h => by
    simp only [Outline.toJson, shown, shownMembers, Json.Shown.object.injEq, List.cons.injEq,
      Prod.mk.injEq, Json.Shown.atom.injEq, Json.Shown.array.injEq, true_and, and_true] at h
    rw [Json.digits_injective h.1, Outline.forestToJson_inj children children' h.2]

theorem Outline.forestToJson_inj : ∀ (os os' : List Outline),
    shownItems (Outline.forestToJson os) = shownItems (Outline.forestToJson os') → os = os'
  | [], [], _ => rfl
  | [], _ :: _, h => by cases h
  | _ :: _, [], h => by cases h
  | o :: os, o' :: os', h => by
    obtain ⟨hfirst, hrest⟩ := List.cons.inj h
    rw [Outline.toJson_inj o o' hfirst, Outline.forestToJson_inj os os' hrest]

end

theorem DeclarationKind.code_injective : Function.Injective code := by
  intro kind kind' h
  cases kind <;> cases kind' <;> first | rfl | cases h

/-- The label tells the eleven kinds of elements apart, and the other members tell the rest. -/
theorem Element.members_inj {e e' : Element} (hlabel : e.label = e'.label)
    (h : shownMembers e.members = shownMembers e'.members) : e.PrintsAs e' := by
  cases e <;> cases e' <;> simp [label] at hlabel
  case metaData.metaData =>
    simp only [members, shown, shownMembers, List.cons.injEq, Prod.mk.injEq,
      Json.Shown.string.injEq, Json.Shown.object.injEq, true_and, and_true] at h
    obtain ⟨rfl, rfl, rfl, rfl, rfl⟩ := h
    exact .refl _
  case project.project =>
    simp only [members, shown, shownMembers, List.cons.injEq, Prod.mk.injEq,
      Json.Shown.string.injEq, true_and, and_true] at h
    rw [h]
    exact .refl _
  case document.document uri isJavaScript uri' isJavaScript' =>
    simp only [members, shown, shownMembers, List.cons.injEq, Prod.mk.injEq,
      Json.Shown.string.injEq, true_and, and_true] at h
    obtain ⟨rfl, hlanguage⟩ := h
    have hscript : isJavaScript = isJavaScript' := by
      cases isJavaScript <;> cases isJavaScript' <;>
        first | rfl | exact absurd hlanguage (by decide)
    rw [hscript]
    exact .refl _
  case resultSet.resultSet => exact .refl _
  case moniker.moniker => exact .refl _
  case range.range r text kind full r' text' kind' full' =>
    simp only [members, Range.members, List.cons_append, List.nil_append, shown, shownMembers,
      List.cons.injEq, Prod.mk.injEq, Json.Shown.string.injEq, Json.Shown.atom.injEq,
      Json.Shown.object.injEq, true_and, and_true] at h
    obtain ⟨hstart, hstop, rfl, hkind, hfull⟩ := h
    rw [Range.eq_of_shown hstart hstop, Range.eq_of_shown hfull.1 hfull.2,
      DeclarationKind.code_injective (Json.digits_injective hkind)]
    exact .refl _
  case complexity.complexity =>
    simp only [members, shown, shownMembers, List.cons.injEq, Prod.mk.injEq,
      Json.Shown.atom.injEq, true_and, and_true] at h
    rw [Json.digits_injective h.1]
    exact .complexity _ (Metrics.toJson_inj h.2)
  case outline.outline =>
    simp only [members, shownMembers, List.cons.injEq, Prod.mk.injEq, true_and, and_true] at h
    rw [Outline.toJson_inj _ _ h]
    exact .refl _
  case referenceResult.referenceResult => exact .refl _
  case references.references =>
    simp only [members, shown, shownMembers, List.cons.injEq, Prod.mk.injEq,
      Json.Shown.atom.injEq, true_and, and_true] at h
    rw [Json.digits_injective h]
    exact .refl _
  case item.item result ids property result' ids' property' =>
    simp only [members, shown, shownMembers, List.cons.injEq, Prod.mk.injEq,
      Json.Shown.atom.injEq, Json.Shown.array.injEq, Json.Shown.string.injEq,
      Json.shownItems_eq_map, List.map_map, true_and, and_true] at h
    obtain ⟨hresult, hids, hproperty⟩ := h
    have hids : ids = ids' := List.map_injective_iff.mpr Json.number_shown_injective hids
    have hproperty : property = property' := by
      cases property <;> cases property' <;> first | rfl | exact absurd hproperty (by decide)
    rw [Json.digits_injective hresult, hids, hproperty]
    exact .refl _

theorem Entry.printsAs_of_render {e e' : Entry} (h : e.toJson.render = e'.toJson.render) :
    e.PrintsAs e' := by
  have hshown := Json.shown_eq_of_render h
  simp only [Entry.toJson, List.cons_append, List.nil_append, shown, shownMembers,
    Json.Shown.object.injEq, List.cons.injEq, Prod.mk.injEq, Json.Shown.atom.injEq,
    Json.Shown.string.injEq, true_and] at hshown
  obtain ⟨hid, htype, hlabel, hmembers⟩ := hshown
  refine ⟨Json.digits_injective hid, ?_, Element.members_inj hlabel hmembers⟩
  cases he : e.type <;> cases he' : e'.type <;> simp [he, he'] at htype ⊢

theorem Metrics.PrintsAs.write {m m' : Metrics} (h : m.PrintsAs m') (rest : Text) :
    m.toJson.write rest = m'.toJson.write rest := by
  simp only [Metrics.toJson, Json.write, Json.writeMembers, h.operandsTotal, h.operatorsTotal,
    h.operandsDistinct, h.operatorsDistinct, h.vocabulary, h.length, h.volume, h.difficulty,
    h.effort, h.timeRequired, h.deliveredBugs, h.estimatedLength]

theorem Entry.render_eq_iff {e e' : Entry} :
    e.toJson.render = e'.toJson.render ↔ e.PrintsAs e' := by
  refine ⟨Entry.printsAs_of_render, fun h => ?_⟩
  obtain ⟨id, type, element⟩ := e
  obtain ⟨id', type', element'⟩ := e'
  obtain ⟨rfl, rfl, helement⟩ := h
  cases helement with
  | refl => rfl
  | complexity component hmetrics =>
    simp only [Json.render, Entry.toJson, Element.label, Element.members, List.cons_append,
      List.nil_append, Json.write, Json.writeMembers, hmetrics.write]

/-- No name occurs twice in an entry: those of the element are not those of the entry itself. -/
theorem Entry.names_nodup (e : Entry) :
    ∃ members, e.toJson = .object members ∧ (members.map (·.1)).Nodup := by
  refine ⟨_, rfl, ?_⟩
  cases e.element <;> simp [Element.members, Range.members]

namespace LineSink

/-- The lines of an output, without what follows the last line break. -/
def lines (s : LineSink) : List Text := (s.text.toList.splitOn '\n').dropLast

theorem taking?_eq (output : String) (entries : List Entry) :
    Sink.taking? ({ output } : LineSink) entries = some
      { output :=
          output ++ String.ofList (entries.flatMap fun e => e.toJson.render ++ ['\n']) } := by
  induction entries generalizing output with
  | nil => simp [Sink.taking?]
  | cons e entries ih =>
    have hwrite : Sink.write e ({ output } : LineSink) = (.ok (),
        { output := output ++ String.ofList e.toJson.render ++ String.ofList ['\n'] }) := rfl
    simp only [Sink.taking?, hwrite]
    rw [ih, List.flatMap_cons, String.ofList_append, String.ofList_append, String.append_assoc,
      String.append_assoc, String.append_assoc]

theorem splitOn_flatMap_render (entries : List Entry) :
    (entries.flatMap fun e => e.toJson.render ++ ['\n']).splitOn '\n' =
      entries.map (·.toJson.render) ++ [[]] := by
  induction entries with
  | nil => rfl
  | cons e entries ih =>
    have hline := e.toJson.newline_not_mem_render
    have hcons : (e :: entries).flatMap (fun e => e.toJson.render ++ ['\n']) =
        e.toJson.render ++ '\n' :: entries.flatMap fun e => e.toJson.render ++ ['\n'] := by
      simp
    rw [hcons, List.splitOn_append_cons_self_of_not_mem hline, ih, List.map_cons, List.cons_append]

end LineSink

theorem MemorySink.taking?_eq (s : MemorySink) (entries : List Entry) :
    Sink.taking? s entries = some ⟨s.entries ++ entries.toArray⟩ := by
  induction entries generalizing s with
  | nil => simp [Sink.taking?]
  | cons e entries ih =>
    have hwrite : Sink.write e s = (.ok (), ⟨s.entries.push e⟩) := rfl
    simp only [Sink.taking?, hwrite]
    rw [ih]
    simp

/-- A text with one line for each entry is written. Two lines are equal if and only if their
entries are, as far as they are printed; so a line determines the entry that is kept in memory at
the same place. -/
theorem lines_determine_entries (entries : List Entry) :
    ∃ (s : LineSink) (m : MemorySink), Sink.taking? ({} : LineSink) entries = some s ∧
      Sink.taking? ({} : MemorySink) entries = some m ∧ m.entries.toList = entries ∧
      s.text.toList = s.lines.flatMap (· ++ ['\n']) ∧ (∀ line ∈ s.lines, '\n' ∉ line) ∧
      s.lines.length = entries.length ∧ s.text.toList.count '\n' = entries.length ∧
      ∀ (entries' : List Entry) (s' : LineSink), Sink.taking? ({} : LineSink) entries' = some s' →
        ∀ (k k' : Nat) (e e' : Entry), entries[k]? = some e → entries'[k']? = some e' →
          (s.lines[k]? = s'.lines[k']? ↔ e.PrintsAs e') := by
  have htaking : ∀ es : List Entry, ∃ s : LineSink,
      Sink.taking? ({} : LineSink) es = some s ∧
        s.text.toList = (es.flatMap fun e => e.toJson.render ++ ['\n']) ∧
        s.lines = es.map (·.toJson.render) := by
    intro es
    refine ⟨_, LineSink.taking?_eq "" es, ?_, ?_⟩
    · simp [LineSink.text]
    · simp [LineSink.lines, LineSink.text, LineSink.splitOn_flatMap_render]
  obtain ⟨s, hs, htext, hlines⟩ := htaking entries
  refine ⟨s, _, hs, MemorySink.taking?_eq {} entries, by simp, ?_, ?_, ?_, ?_, ?_⟩
  · rw [htext, hlines, List.flatMap_map]
  · intro line hline
    rw [hlines] at hline
    obtain ⟨e, -, rfl⟩ := List.mem_map.mp hline
    exact e.toJson.newline_not_mem_render
  · rw [hlines, List.length_map]
  · have hcount : ∀ e : Entry, (e.toJson.render ++ ['\n']).count '\n' = 1 := by
      intro e
      rw [List.count_append, List.count_eq_zero.mpr e.toJson.newline_not_mem_render]
      rfl
    rw [htext, List.count_flatMap]
    simp [Function.comp_def, hcount]
  · intro entries' s' hs' k k' e e' he he'
    obtain ⟨t, ht, -, hlines'⟩ := htaking entries'
    obtain rfl : t = s' := Option.some.inj (ht.symm.trans hs')
    rw [hlines, hlines', List.getElem?_map, List.getElem?_map, he, he', Option.map_some,
      Option.map_some, Option.some_inj]
    exact Entry.render_eq_iff

end SourceIndex
