import SourceIndex.Proofs.Declarations

/-! Leaving out the local declarations of a file. Which symbols there are does not depend on that,
and neither does what is asked to find them. So the index without the locals is the one with them
after their ranges, components and questions are taken out, and after each of their nodes in the
outline has made room for its children. -/

namespace SourceIndex

def Symbol.isLocal : Symbol → Bool
  | fileLocal _ => true
  | _ => false

theorem exists_matching {as bs : List Nat} (hnodup : as.Nodup) (hlength : as.length = bs.length) :
    ∃ f : Nat → Option Nat, as.map f = bs.map some ∧ ∀ a, f a = none ↔ a ∉ as := by
  induction as generalizing bs with
  | nil =>
    obtain rfl : bs = [] := List.length_eq_zero_iff.mp hlength.symm
    exact ⟨fun _ => none, rfl, by simp⟩
  | cons a as ih =>
    cases bs with
    | nil => simp at hlength
    | cons b bs =>
      obtain ⟨hfresh, hnodup⟩ := List.nodup_cons.mp hnodup
      obtain ⟨f, hmap, hnone⟩ := ih hnodup (Nat.succ.inj hlength)
      refine ⟨Function.update f a (some b), ?_, fun a' => ?_⟩
      · have hrest : as.map (Function.update f a (some b)) = as.map f := by
          refine List.map_congr_left fun a' ha' => Function.update_of_ne ?_ _ _
          rintro rfl
          exact hfresh ha'
        rw [List.map_cons, hrest, hmap, Function.update_self, List.map_cons]
      · by_cases ha : a' = a
        · simp [ha]
        · simp [ha, hnone]

mutual

/-- A tree with other ids. A node that gets none makes room for its children. -/
def Outline.relabel (f : Nat → Option Nat) : Outline → List Outline
  | .node id children =>
    (f id).elim (Outline.relabelForest f children) fun id' =>
      [.node id' (Outline.relabelForest f children)]

def Outline.relabelForest (f : Nat → Option Nat) : List Outline → List Outline
  | [] => []
  | tree :: trees => tree.relabel f ++ Outline.relabelForest f trees

end

theorem Outline.relabelForest_append (f : Nat → Option Nat) (trees trees' : List Outline) :
    Outline.relabelForest f (trees ++ trees') =
      Outline.relabelForest f trees ++ Outline.relabelForest f trees' := by
  induction trees with
  | nil => rfl
  | cons tree trees ih => rw [List.cons_append, relabelForest, ih, relabelForest, List.append_assoc]

namespace Walk

/-- The same walk with other ids, and with nothing opened at what gets none. -/
def relabel (f : Nat → Option Nat) (w : Walk Opened) : Walk Opened :=
  w.mapNotes fun o => (f o.id).map fun id => ⟨id, o.symbol⟩

theorem tokens_relabel (f : Nat → Option Nat) (w : Walk Opened) :
    (w.relabel f).tokens = w.tokens := by
  simp only [tokens, relabel, operands_mapNotes, operators_mapNotes]

theorem components_relabel (f : Nat → Option Nat) (w : Walk Opened) :
    (w.relabel f).components =
      w.components.filterMap fun d => (f d.id).map fun id => ⟨id, d.tokens⟩ := by
  rw [components, components, relabel, spans_mapNotes, List.filterMap_map, List.map_filterMap]
  refine List.filterMap_congr fun x _ => ?_
  cases h : f x.1.note.id with
  | none => simp [h]
  | some id =>
    simp only [Function.comp_apply, h, Option.map_some]
    exact congrArg (fun tokens => some (Component.mk id tokens)) (tokens_relabel f x.2)

theorem forest_relabel (f : Nat → Option Nat) (w : Walk Opened) :
    (w.relabel f).forest = Outline.relabelForest f w.forest := by
  induction w with
  | done => rfl
  | operator token rest ih => exact ih
  | operand token rest ih => exact ih
  | node index n note inside rest ih ih' =>
    have hinside : (inside.mapNotes fun o => (f o.id).map fun id => ⟨id, o.symbol⟩).forest =
        Outline.relabelForest f inside.forest := ih
    have hrest : (rest.mapNotes fun o => (f o.id).map fun id => ⟨id, o.symbol⟩).forest =
        Outline.relabelForest f rest.forest := ih'
    simp only [relabel, mapNotes, forest, hinside, hrest, Outline.relabelForest_append]
    cases note with
    | none => rfl
    | some o =>
      cases h : f o.id <;> simp [h, Outline.relabelForest, Outline.relabel]

theorem eq_of_symbols_ids {v w : Walk Opened} (hsymbols : v.symbols = w.symbols)
    (hids : v.ids = w.ids) : v = w := by
  induction v generalizing w with
  | done =>
    cases w with
    | done => rfl
    | _ => cases hsymbols
  | operator token rest ih =>
    cases w with
    | operator token' rest' =>
      obtain ⟨rfl, hrest⟩ := operator.inj hsymbols
      rw [ih hrest hids]
    | _ => cases hsymbols
  | operand token rest ih =>
    cases w with
    | operand token' rest' =>
      obtain ⟨rfl, hrest⟩ := operand.inj hsymbols
      rw [ih hrest hids]
    | _ => cases hsymbols
  | node index n note inside rest ih ih' =>
    cases w with
    | node index' n' note' inside' rest' =>
      obtain ⟨rfl, rfl, hnote, hinside, hrest⟩ := node.inj hsymbols
      have hlength : inside.ids.length = inside'.ids.length := by
        rw [← noted_symbols_length, ← noted_symbols_length]
        exact congrArg (fun w : Walk Symbol => w.noted.length) hinside
      rw [ids_node, ids_node] at hids
      have hboth : note = note' ∧ inside.ids ++ rest.ids = inside'.ids ++ rest'.ids := by
        cases note with
        | none =>
          cases note' with
          | none => exact ⟨rfl, hids⟩
          | some o' => cases hnote
        | some o =>
          cases note' with
          | none => cases hnote
          | some o' =>
            obtain ⟨hid, htail⟩ := List.cons.inj hids
            have hsymbol : o.symbol = o'.symbol := Option.some.inj hnote
            obtain ⟨id, symbol⟩ := o
            obtain ⟨id', symbol'⟩ := o'
            obtain rfl : id = id' := hid
            obtain rfl : symbol = symbol' := hsymbol
            exact ⟨rfl, htail⟩
      obtain ⟨rfl, hboth⟩ := hboth
      obtain ⟨hin, hout⟩ := List.append_inj hboth hlength
      rw [ih hinside hin, ih' hrest hout]
    | _ => cases hsymbols

theorem ids_relabel (f : Nat → Option Nat) (w : Walk Opened) :
    (w.relabel f).ids = w.noted.filterMap fun d => f d.note.id := by
  rw [ids, relabel, noted_mapNotes, List.map_filterMap]
  refine List.filterMap_congr fun d _ => ?_
  cases f d.note.id <;> rfl

theorem id_mem_filter_iff {w : Walk Opened} (hnodup : w.ids.Nodup) (keep : Noted Opened → Bool)
    {d : Noted Opened} (hd : d ∈ w.noted) :
    d.note.id ∈ (w.noted.filter keep).map (·.note.id) ↔ keep d = true := by
  constructor
  · intro h
    obtain ⟨d', hd', hid⟩ := List.mem_map.mp h
    obtain ⟨hd', hkeep⟩ := List.mem_filter.mp hd'
    rwa [← List.inj_on_of_nodup_map hnodup hd' hd hid]
  · exact fun h => List.mem_map_of_mem (List.mem_filter.mpr ⟨hd, h⟩)

/-- Two walks of which the second has only some of the symbols of the first. Their ids match, with
one more pair given. -/
theorem exists_relabel {v w : Walk Opened} (keep : Symbol → Bool) {first : Nat} (first' : Nat)
    (hnodup : (first :: v.ids).Nodup)
    (hsymbols : w.symbols = v.mapNotes fun o => if keep o.symbol then some o.symbol else none) :
    ∃ f : Nat → Option Nat, f first = some first' ∧ w = v.relabel f ∧
      ∀ d ∈ v.noted, (f d.note.id = none ↔ keep d.note.symbol = false) := by
  obtain ⟨kept, hkept⟩ : ∃ kept, kept = v.noted.filter fun d => keep d.note.symbol := ⟨_, rfl⟩
  have hsublist : (kept.map (·.note.id)).Sublist v.ids := by
    rw [hkept]
    exact List.filter_sublist.map _
  have hlength : (kept.map (·.note.id)).length = w.ids.length := by
    rw [← noted_symbols_length, hsymbols, noted_mapNotes, List.length_filterMap_eq_countP,
      List.length_map, hkept, ← List.countP_eq_length_filter]
    refine List.countP_congr fun d _ => ?_
    cases keep d.note.symbol <;> simp
  have hlengths : (first :: kept.map (·.note.id)).length = (first' :: w.ids).length :=
    congrArg (· + 1) hlength
  obtain ⟨f, hmap, hnone⟩ := exists_matching (hnodup.sublist (hsublist.cons_cons first)) hlengths
  obtain ⟨hfirst, hmap⟩ := List.cons.inj hmap
  obtain ⟨hfresh, hnodup⟩ := List.nodup_cons.mp hnodup
  have hlocal : ∀ d ∈ v.noted, (f d.note.id = none ↔ keep d.note.symbol = false) := by
    intro d hd
    have hne : d.note.id ≠ first := fun h => hfresh (h ▸ List.mem_map_of_mem hd)
    rw [hnone, List.mem_cons, not_or, hkept, id_mem_filter_iff hnodup _ hd, Bool.not_eq_true]
    exact and_iff_right hne
  refine ⟨f, hfirst, eq_of_symbols_ids ?_ ?_, hlocal⟩
  · rw [hsymbols, relabel, symbols, mapNotes_mapNotes]
    refine mapNotes_congr fun d hd => ?_
    have hd := hlocal d hd
    cases hk : keep d.note.symbol <;> cases hf : f d.note.id <;> simp_all
  · have hrest : v.noted.filterMap (fun d => f d.note.id) =
        kept.filterMap fun d => f d.note.id := by
      rw [hkept, List.filterMap_filter]
      refine List.filterMap_congr fun d hd => ?_
      cases hk : keep d.note.symbol with
      | true => rfl
      | false => exact (hlocal d hd).mpr hk
    have hback : w.ids = kept.filterMap fun d => f d.note.id := by
      calc w.ids = (w.ids.map some).filterMap id := by simp
        _ = ((kept.map (·.note.id)).map f).filterMap id := by rw [hmap]
        _ = kept.filterMap fun d => f d.note.id := by
          rw [List.map_map, List.filterMap_map]
          rfl
    rw [ids_relabel, hrest, hback]

end Walk

/-- From two journals on, the same questions about types were put. -/
def Journal.AsksAlike (base base' j j' : Journal) : Prop :=
  ∃ asked, j.typeQueries = base.typeQueries ++ asked ∧ j'.typeQueries = base'.typeQueries ++ asked

theorem Collaborators.corresponds_asksAlike (c : Collaborators) (base base' : Journal) :
    c.Corresponds c (Journal.AsksAlike base base') where
  package := rfl
  write := by
    rintro j j' ⟨asked, hj, hj'⟩ e
    refine ⟨asked, ?_, ?_⟩
    · rw [← hj, Journal.typeQueries, Journal.queries_push_write, Journal.typeQueries]
    · rw [← hj', Journal.typeQueries, Journal.queries_push_write, Journal.typeQueries]
  consult := by
    rintro j j' ⟨asked, hj, hj'⟩ q
    rw [Journal.consult_fst, Journal.consult_fst]
    refine ⟨rfl, asked ++ [q].filter (·.reference?.isNone), ?_, ?_⟩
    · rw [← List.append_assoc, ← hj, Journal.typeQueries, Journal.consult_queries,
        List.filter_append, Journal.typeQueries]
    · rw [← List.append_assoc, ← hj', Journal.typeQueries, Journal.consult_queries,
        List.filter_append, Journal.typeQueries]

namespace FileContext

variable {c : FileContext} {document document' : Nat} {s s' : Session}

def withLocals (c : FileContext) (includeLocals : Bool) : FileContext :=
  { c with options := { c.options with includeLocals } }

theorem survey_withLocals (includeLocals : Bool) (w : Walk Empty) :
    (c.withLocals includeLocals).survey w = c.survey w := by
  induction w with
  | done => rfl
  | operator token rest ih => rw [survey, survey, ih]
  | operand token rest ih => rw [survey, survey, ih]
  | node index n note inside rest ih ih' =>
    rw [survey, survey, ih, ih']
    rfl

/-- The survey finds the same symbols and asks the same questions, with locals and without. -/
theorem surveyed_withLocals (hsymbols : s'.symbols = s.symbols)
    (hpackages : s'.packages = s.packages) :
    ((c.withLocals false).surveyed s').1 = ((c.withLocals true).surveyed s).1 ∧
      Journal.AsksAlike s.journal s'.journal ((c.withLocals true).surveyed s).2.journal
        ((c.withLocals false).surveyed s').2.journal := by
  have hstart : Memory.Alike (Journal.AsksAlike s.journal s'.journal)
      ⟨s.symbols, {}, s.packages, s.journal⟩ ⟨s'.symbols, {}, s'.packages, s'.journal⟩ :=
    ⟨s'.journal, by rw [hsymbols, hpackages], [], by simp, by simp⟩
  obtain ⟨hwalk, j, hmemory, hj⟩ := survey_inStep (c := c)
    (c.world.collaborators.corresponds_asksAlike s.journal s'.journal) c.file.walk _ _ hstart
  simp only [surveyed, survey_withLocals]
  refine ⟨hwalk.symm, ?_⟩
  have hjournal : ((c.survey c.file.walk).run
    ⟨s'.symbols, {}, s'.packages, s'.journal⟩).2.journal = j := congrArg Memory.journal hmemory
  exact hjournal ▸ hj

theorem kept?_withLocals (includeLocals : Bool) (symbol : Symbol) :
    (c.withLocals includeLocals).kept? symbol =
      if includeLocals || !symbol.isLocal then some symbol else none := by
  cases symbol <;> cases includeLocals <;> rfl

theorem exists_relabel_walk (document' : Nat) (hsymbols : s'.symbols = s.symbols)
    (hpackages : s'.packages = s.packages) (hdocument : document ≤ s.lastId) :
    ∃ id? : Nat → Option Nat, id? document = some document' ∧
      (c.withLocals false).walk s' = ((c.withLocals true).walk s).relabel id? ∧
      ∀ d ∈ ((c.withLocals true).walk s).noted,
        (id? d.note.id = none ↔ d.note.symbol.isLocal = true) := by
  have hnodup : (document :: ((c.withLocals true).walk s).ids).Nodup :=
    ((c.withLocals true).components_increasing hdocument).imp fun h => Nat.ne_of_lt h
  have hwalk : ∀ includeLocals s, ((c.withLocals includeLocals).walk s).symbols =
      ((c.withLocals includeLocals).surveyed s).1.mapNotes (c.withLocals includeLocals).kept? :=
    fun includeLocals s => Walk.symbols_number _ _ _
  have hfilter : ((c.withLocals false).walk s').symbols =
      ((c.withLocals true).walk s).mapNotes fun o =>
        if !o.symbol.isLocal then some o.symbol else none := by
    calc ((c.withLocals false).walk s').symbols
        = ((c.withLocals true).surveyed s).1.mapNotes (c.withLocals false).kept? := by
          rw [hwalk, (surveyed_withLocals hsymbols hpackages).1]
      _ = (((c.withLocals true).walk s).symbols).mapNotes (c.withLocals false).kept? := by
          rw [hwalk, Walk.mapNotes_mapNotes]
          refine Walk.mapNotes_congr fun d _ => ?_
          simp [kept?_withLocals]
      _ = _ := by
          rw [Walk.symbols, Walk.mapNotes_mapNotes]
          refine Walk.mapNotes_congr fun d _ => ?_
          simp [kept?_withLocals]
  obtain ⟨id?, hid, hrelabel, hlocal⟩ := Walk.exists_relabel
    (fun symbol => !symbol.isLocal) document' hnodup hfilter
  refine ⟨id?, hid, hrelabel, fun d hd => ?_⟩
  rw [hlocal d hd, Bool.not_eq_false']

theorem declarations_relabel {id? : Nat → Option Nat}
    (hwalk : (c.withLocals false).walk s' = ((c.withLocals true).walk s).relabel id?) :
    (c.withLocals false).declarations s' =
      ((c.withLocals true).declarations s).filterMap fun d =>
        (id? d.note.id).map fun id => ⟨d.index, d.node, ⟨id, d.note.symbol⟩⟩ := by
  by_cases hroot : c.file.arena.kind? c.file.root = some .sourceFile
  · rw [declarations_rooted (c := c.withLocals false) hroot,
      declarations_rooted (c := c.withLocals true) hroot, hwalk, Walk.relabel, Walk.noted_mapNotes]
    refine List.filterMap_congr fun d _ => ?_
    rw [Option.map_map]
    rfl
  · rw [declarations_unrooted (c := c.withLocals false) hroot,
      declarations_unrooted (c := c.withLocals true) hroot, List.filterMap_nil]

theorem mem_noted_of_mem_declarations {d : Noted Opened} (h : d ∈ c.declarations s) :
    d ∈ (c.walk s).noted := by
  by_cases hroot : c.file.arena.kind? c.file.root = some .sourceFile
  · rwa [declarations_rooted hroot] at h
  · rw [declarations_unrooted hroot] at h
    exact absurd h List.not_mem_nil

theorem typeQueries_withLocals (document document' : Nat) (hsymbols : s'.symbols = s.symbols)
    (hpackages : s'.packages = s.packages) :
    Journal.AsksAlike s.journal s'.journal
      (((c.withLocals true).index document).run s).2.journal
      (((c.withLocals false).index document').run s').2.journal := by
  by_cases hroot : c.file.arena.kind? c.file.root = some .sourceFile
  · obtain ⟨asked, hasked, hasked'⟩ := (surveyed_withLocals (c := c) hsymbols hpackages).2
    refine ⟨asked, ?_, ?_⟩
    · rw [index_typeQueries (c := c.withLocals true) document s hroot, hasked]
    · rw [index_typeQueries (c := c.withLocals false) document' s' hroot, hasked']
  · refine ⟨[], ?_, ?_⟩
    · rw [index_unrooted (c := c.withLocals true) hroot, List.append_nil]
    · rw [index_unrooted (c := c.withLocals false) hroot, List.append_nil]

/-- The index of a file without its locals next to the one with them, each in its own session. An
id of the one is matched with the id in the other that belongs to the same declaration. -/
structure LeavesLocalsOut (c : FileContext) (document document' : Nat) (s s' : Session)
    (run run' : Except IndexError FileSummary × Session) (id? : Nat → Option Nat) : Prop where
  file : id? document = some document'
  locals : ∀ d ∈ (c.withLocals true).declarations s,
    (id? d.note.id = none ↔ d.note.symbol.isLocal = true)
  declarations : (c.withLocals false).declarations s' =
    ((c.withLocals true).declarations s).filterMap fun d =>
      (id? d.note.id).map fun id => ⟨d.index, d.node, ⟨id, d.note.symbol⟩⟩
  symbols : ((c.withLocals false).declarations s').map (fun d => (d.index, d.note.symbol)) =
    (((c.withLocals true).declarations s).map fun d => (d.index, d.note.symbol)).filter
      fun x => !x.2.isLocal
  ranges : run.2.journal.ranges =
      s.journal.ranges ++ ((c.withLocals true).declarations s).map c.rangeEntry ∧
    run'.2.journal.ranges =
      s'.journal.ranges ++ ((c.withLocals false).declarations s').map c.rangeEntry
  questions : run.2.journal.referenceQueries =
      s.journal.referenceQueries ++ ((c.withLocals true).declarations s).map c.question ∧
    run'.2.journal.referenceQueries =
      s'.journal.referenceQueries ++ ((c.withLocals false).declarations s').map c.question
  types : ∃ asked, run.2.journal.typeQueries = s.journal.typeQueries ++ asked ∧
    run'.2.journal.typeQueries = s'.journal.typeQueries ++ asked
  error : ∀ e, run.1 = .error e ↔ run'.1 = .error e
  components : ∀ a a', run.1 = .ok a → run'.1 = .ok a' →
    a'.components = a.components.filterMap fun d => (id? d.id).map fun id => ⟨id, d.tokens⟩
  forest : ((c.withLocals false).walk s').forest =
    Outline.relabelForest id? ((c.withLocals true).walk s).forest
  outline : (∀ a, run.1 = .ok a →
      a.outline = ((c.withLocals true).walk s).forest.filter Outline.hasChildren) ∧
    ∀ a', run'.1 = .ok a' →
      a'.outline = ((c.withLocals false).walk s').forest.filter Outline.hasChildren

/-- Leaving out the locals only filters. The declarations that remain have the symbols, tokens and
questions they have otherwise, the same is asked about types, and in the outline the children of a
local one stand in its place. -/
theorem index_without_locals (hsymbols : s'.symbols = s.symbols)
    (hpackages : s'.packages = s.packages) (hdocument : document ≤ s.lastId)
    (hdocument' : document' ≤ s'.lastId) :
    ∃ id?, LeavesLocalsOut c document document' s s' (((c.withLocals true).index document).run s)
      (((c.withLocals false).index document').run s') id? := by
  obtain ⟨id?, hid, hwalk, hlocal⟩ :=
    exists_relabel_walk (c := c) document' hsymbols hpackages hdocument
  have hlocals : ∀ d ∈ (c.withLocals true).declarations s,
      (id? d.note.id = none ↔ d.note.symbol.isLocal = true) :=
    fun d hd => hlocal d (mem_noted_of_mem_declarations hd)
  have hdeclarations := declarations_relabel hwalk
  refine ⟨id?, hid, hlocals, hdeclarations, ?_, ⟨index_ranges _ _ _, index_ranges _ _ _⟩,
    ⟨index_questions _ _ _, index_questions _ _ _⟩,
    typeQueries_withLocals document document' hsymbols hpackages, ?_, ?_, ?_, ?_⟩
  · rw [hdeclarations, List.map_filterMap, List.filter_map, ← List.filterMap_eq_map,
      List.filterMap_filter]
    refine List.filterMap_congr fun d hd => ?_
    have hd := hlocals d hd
    cases hf : id? d.note.id <;> simp_all
  · intro e
    rw [index_error_iff, index_error_iff]
    rfl
  · intro a a' ha ha'
    rw [(index_indexes hdocument (Prod.ext ha rfl)).components,
      (index_indexes hdocument' (Prod.ext ha' rfl)).components, hwalk, Walk.tokens_relabel,
      Walk.components_relabel, List.filterMap_cons]
    simp [hid]
  · rw [hwalk, Walk.forest_relabel]
  · exact ⟨fun a ha => (index_indexes hdocument (Prod.ext ha rfl)).outline,
      fun a' ha' => (index_indexes hdocument' (Prod.ext ha' rfl)).outline⟩

/-- A function in a method, with another function inside. -/
def functionsInMethod : FileContext where
  world := ⟨⟨#[file]⟩, { Collaborators.none with package := fun _ => pure (some (.global "p ")) }⟩
  options := {}
  fileId := 0
  file
where
  file : SourceFile :=
    { name := "a.ts"
      text := "class A{m(){function f(){function g(){}}}}".toList
      arena := (((((((((((Arena.empty.add .identifier 34 35 (.identifier "g")).add .block 37 39
        (.statement (.block []))).add .functionDeclaration 25 39
        (.declaration (.function none false (some 0) none [] none (some 1)))).add .block 24 40
        (.statement (.block [some 2]))).add .identifier 21 22 (.identifier "f")).add
        .functionDeclaration 12 40
        (.declaration (.function none false (some 4) none [] none (some 3)))).add .block 11 41
        (.statement (.block [some 5]))).add .identifier 8 9 (.identifier "m")).add
        .methodDeclaration 8 41
        (.declaration (.method none false (some 7) false none [] none (some 6)))).add
        .identifier 6 7 (.identifier "A")).add .classDeclaration 0 42
        (.declaration (.classLike none (some 9) none none [some 8]))).add .sourceFile 0 42
        (.sourceFile [some 10] "a.ts" .ts false)
      root := some 11 }

/-- The inner function has a symbol from elsewhere, so that it stays where the outer one is left
out. -/
theorem functionsInMethod_without_locals :
    let symbols : SymbolTable := Table.insert {} ⟨0, some 2⟩ (.global "p g().")
    (((functionsInMethod.withLocals true).declarations { lastId := 1, symbols }).map
      fun d => (d.index, d.note.symbol)) =
      [(10, .global "p A#"), (8, .global "p A#m()."), (5, .fileLocal 1), (2, .global "p g().")] ∧
    ∃ id?, LeavesLocalsOut functionsInMethod 1 5 { lastId := 1, symbols } { lastId := 7, symbols }
      (((functionsInMethod.withLocals true).index 1).run { lastId := 1, symbols })
      (((functionsInMethod.withLocals false).index 5).run { lastId := 7, symbols }) id? :=
  ⟨by decide +kernel, index_without_locals rfl rfl (by decide) (by decide)⟩

end FileContext

end SourceIndex
