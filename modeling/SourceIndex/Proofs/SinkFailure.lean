import SourceIndex.Proofs.SinkRuns

/-! A run whose sink fails. Nothing is carried out after the failure, so the run has done what a run
with a reliable sink does before the same write, and it ends with that failure. -/

namespace SourceIndex

variable {σ : Type} [Sink σ] {sink : σ}

theorem Effect.entries_split {effects : List Effect} {k : Nat} {e : Entry}
    (he : (effects.filterMap Effect.entry?)[k]? = some e) :
    ∃ front rest, effects = front ++ .write e :: rest ∧
      front.filterMap Effect.entry? = (effects.filterMap Effect.entry?).take k := by
  have hsplit : effects.filterMap Effect.entry? =
      (effects.filterMap Effect.entry?).take k ++
        e :: (effects.filterMap Effect.entry?).drop (k + 1) := by
    obtain ⟨hk, rfl⟩ := List.getElem?_eq_some_iff.mp he
    rw [List.getElem_cons_drop, List.take_append_drop]
  obtain ⟨first, second, heffects, hfirst, hsecond⟩ := List.filterMap_eq_append_iff.mp hsplit
  obtain ⟨skipped, effect, rest, rfl, hskipped, hentry, -⟩ := List.filterMap_eq_cons_iff.mp hsecond
  obtain rfl : effect = .write e := by
    cases effect with
    | write entry => exact congrArg Effect.write (Option.some.inj hentry)
    | ask query => simp [Effect.entry?] at hentry
    | report error => simp [Effect.entry?] at hentry
    | flush => simp [Effect.entry?] at hentry
  refine ⟨first ++ skipped, rest, by rw [heffects, List.append_assoc], ?_⟩
  rw [List.filterMap_append, hfirst, List.filterMap_eq_nil_iff.mpr hskipped, List.append_nil]

namespace Project

variable {p : Project}

/-- All that a run does on a sink. -/
def journalOn (p : Project) (sink : σ) : Journal := (stateAfter (p.run ⟨{}, sink⟩)).state.journal

/-- A sink that does not fail makes no difference to a run, its flush included. -/
theorem run_of_reliable {ready : σ → Prop} (hs : Sink.Reliable ready) (p : Project) (s : Session)
    (hsink : ready sink) :
    ∃ sink', ready sink' ∧ p.run ⟨s, sink⟩ = onSink sink' (p.run ⟨s, {}⟩) := by
  by_cases hsize : p.program.size = 0
  · exact ⟨sink, hsink, by simp [run, hsize]; rfl⟩
  obtain ⟨sink', hsink', hrun⟩ := (writeAll_enacts (p := p)).of_reliable hs s hsink
  rw [run_of_files hsize, run_of_files hsize]
  cases hquiet : p.writeAll (⟨s, {}⟩ : Live Session Quiet) with
  | error fault l =>
    rw [hquiet] at hrun
    exact ⟨sink', hsink', by rw [bind_of_error hquiet, bind_of_error hrun]; rfl⟩
  | ok summary l =>
    rw [hquiet] at hrun
    rw [bind_of_ok hquiet, bind_of_ok hrun]
    obtain ⟨hok, hready⟩ := hs.flush sink' hsink'
    cases hflush : Sink.flush sink' with
    | mk result sink'' =>
      rw [hflush] at hok hready
      obtain rfl : result = .ok () := hok
      have hrun : (inContext .flush Live.flush : Attempt (Live Session σ) ProjectError Unit)
          ⟨l.state, sink'⟩ = .ok () ⟨Live.note .flush l.state, sink''⟩ := by
        simp [inContext, Attempt.mapError, Live.flush, hflush]
      exact ⟨sink'', hready, by rw [bind_of_ok hrun]; rfl⟩

/-- What is written is followed by at most the flush. -/
theorem run_log (l : Live Session Quiet) (hsize : p.program.size ≠ 0) :
    log (stateAfter (p.run l)) = log (stateAfter (p.writeAll l)) ∨
      log (stateAfter (p.run l)) = log (stateAfter (p.writeAll l)) ++ [.flush] := by
  rw [run_of_files hsize]
  cases hrun : p.writeAll l with
  | ok summary l' =>
    rw [bind_of_ok hrun]
    exact .inr Array.toList_push
  | error fault l' =>
    rw [bind_of_error hrun]
    exact .inl rfl

/-- A failing sink ends the run. Let a sink take the first `k` entries that a run with a reliable
sink writes, and refuse the next one. Then the run fails with that failure, which is told with the
purpose of what was being written; the sink is as it was left by that write; what was written and
what was asked is the beginning of what the reliable run writes and asks. -/
theorem sink_failure_ends_run {τ : Type} [Sink τ] {ready : τ → Prop} (hs : Sink.Reliable ready)
    (p : Project) {reliable : τ} (hready : ready reliable) {sink₁ sink₂ : σ} {k : Nat} {e : Entry}
    {failure : SinkError} (he : (p.journalOn reliable).entries[k]? = some e)
    (htaken : Sink.taking? sink ((p.journalOn reliable).entries.take k) = some sink₁)
    (hrefused : Sink.write e sink₁ = (.error failure, sink₂)) :
    (∃ purpose s, p.run ⟨{}, sink⟩ = .error (.error (.sink purpose failure)) ⟨s, sink₂⟩) ∧
      (p.journalOn sink).entries = (p.journalOn reliable).entries.take k ∧
      .flush ∉ (p.journalOn sink).toList ∧
      (∃ rest, (p.journalOn reliable).toList =
        (p.journalOn sink).toList ++ .write e :: rest) ∧
      (p.journalOn sink).queries <+: (p.journalOn reliable).queries := by
  have hsize : p.program.size ≠ 0 := by
    intro hsize
    have hnothing : p.journalOn reliable = #[] := by
      simp [journalOn, run, hsize]
      rfl
    simp [hnothing, Journal.entries] at he
  obtain ⟨effects, hlog, hnoFlush, hend⟩ := writeAll_enacts (p := p) {} sink
  have hwritten : (p.journalOn reliable).toList = effects ∨
      (p.journalOn reliable).toList = effects ++ [.flush] := by
    obtain ⟨sink', -, hrun⟩ := run_of_reliable hs p {} hready
    have hquiet : (p.journalOn reliable).toList =
        log (stateAfter (p.run (⟨{}, {}⟩ : Live Session Quiet))) := by
      rw [journalOn, hrun]
      cases p.run (⟨{}, {}⟩ : Live Session Quiet) <;> rfl
    have hbegin : log (stateAfter (p.writeAll (⟨{}, {}⟩ : Live Session Quiet))) = effects := hlog
    rw [hquiet, ← hbegin]
    exact run_log _ hsize
  have hentries : (p.journalOn reliable).entries = effects.filterMap Effect.entry? := by
    rcases hwritten with h | h
    · rw [Journal.entries, h]
    · rw [Journal.entries, h]
      simp [Effect.entry?]
  rw [hentries] at he htaken
  obtain ⟨front, rest, rfl, hfront⟩ := Effect.entries_split he
  have hflush : .flush ∉ front := fun h => hnoFlush (List.mem_append_left _ h)
  have hdelivery : (front ++ .write e :: rest).foldl Delivery.perform ({ sink } : Delivery σ) =
      ⟨sink₂, front.toArray, some failure⟩ := by
    have htaking := Delivery.foldl_perform_taking (d := ({ sink } : Delivery σ)) hflush rfl
      (hfront ▸ htaken)
    rw [List.foldl_append, htaking, List.foldl_cons, Delivery.perform_refused rfl hrefused,
      Delivery.foldl_perform_failed rfl]
    simp
  rw [hdelivery] at hend
  obtain ⟨_, s, ⟨purpose, rfl⟩, hrun, hdone⟩ := hend
  have hfails : p.run ⟨{}, sink⟩ = .error (.error (.sink purpose failure)) ⟨s, sink₂⟩ := by
    rw [run_of_files hsize, bind_of_error hrun]
  have hjournal : (p.journalOn sink).toList = front := by
    rw [journalOn, hfails]
    exact hdone
  have hbegin : ∃ rest, (p.journalOn reliable).toList = front ++ .write e :: rest := by
    rcases hwritten with h | h
    · exact ⟨rest, h⟩
    · exact ⟨rest ++ [.flush], by rw [h]; simp⟩
  refine ⟨⟨purpose, s, hfails⟩, ?_, by rwa [hjournal], by rwa [hjournal], ?_⟩
  · rw [Journal.entries, hjournal, hfront, hentries]
  · obtain ⟨rest', hrest'⟩ := hbegin
    rw [Journal.queries, Journal.queries, hjournal, hrest', List.filterMap_append]
    exact List.prefix_append _ _

/-- A sink with room for a number of entries. -/
structure Tray where
  room : Nat

instance : Sink Tray where
  write _ tray :=
    if tray.room = 0 then (.error (.io LineSink.full), tray) else (.ok (), ⟨tray.room - 1⟩)
  flush tray := (.ok (), tray)

theorem Tray.taking?_eq (room : Nat) (entries : List Entry) :
    Sink.taking? (⟨room + entries.length⟩ : Tray) entries = some ⟨room⟩ := by
  induction entries with
  | nil => rfl
  | cons e entries ih =>
    have hwrite : Sink.write e (⟨room + (entries.length + 1)⟩ : Tray) =
        (.ok (), ⟨room + entries.length⟩) := rfl
    simp only [List.length_cons, Sink.taking?, hwrite]
    exact ih

/-- There is room for eight of thirteen entries. The ninth is the document of the file that fails,
and the run ends there. -/
theorem classAndBroken_sink_failure :
    (∃ purpose s, classAndBroken.run ⟨{}, (⟨8⟩ : Tray)⟩ =
        .error (.error (.sink purpose (.io LineSink.full))) ⟨s, ⟨0⟩⟩) ∧
      (classAndBroken.journalOn (⟨8⟩ : Tray)).entries =
        (classAndBroken.journalOn ({} : MemorySink)).entries.take 8 := by
  have hlength : (classAndBroken.journalOn ({} : MemorySink)).entries.length = 13 := by
    decide +kernel
  have he : (classAndBroken.journalOn ({} : MemorySink)).entries[8]? =
      some ((classAndBroken.journalOn ({} : MemorySink)).entries.get ⟨8, by omega⟩) := by
    simp
  have htaken : Sink.taking? (⟨8⟩ : Tray)
      ((classAndBroken.journalOn ({} : MemorySink)).entries.take 8) = some ⟨0⟩ := by
    have htaking := Tray.taking?_eq 0
      ((classAndBroken.journalOn ({} : MemorySink)).entries.take 8)
    rwa [List.length_take, hlength] at htaking
  obtain ⟨hfailed, hwritten, -⟩ :=
    sink_failure_ends_run memory_reliable classAndBroken trivial he htaken rfl
  exact ⟨hfailed, hwritten⟩

end Project

end SourceIndex
