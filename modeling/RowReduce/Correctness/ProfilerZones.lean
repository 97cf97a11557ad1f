import RowReduce.Tools.CheckProfiler

/-!
# Matching of profiler zones

One pass over the interleaved events accepts exactly the files in which every
expected key's own events are balanced, and its intervals are the matched pairs.
-/

namespace RowReduce

open Fallible Brackets

/-- A start before its end. -/
def EndsAfter (start stop : ProfilerEvent) : Prop := start.time ≤ stop.time

instance : DecidableRel EndsAfter := fun start stop => Nat.decLe start.time stop.time

def ProfilerEvent.bracket (e : ProfilerEvent) : Bracket ProfilerEvent :=
  if e.phase = "ZONE_START" then .opens e else .closes e

/-- A start or an end. -/
def ProfilerEvent.IsMark (e : ProfilerEvent) : Prop :=
  e.phase = "ZONE_START" ∨ e.phase = "ZONE_END"

/-- The events of the expected zones, each under its key. -/
def zoneWord (expectedZones : List String) (events : List ProfilerEvent) :
    List (ZoneKey × Bracket ProfilerEvent) :=
  (events.filter fun e => e.zone ∈ expectedZones).map fun e => (e.key, e.bracket)

/-- The events of one key, in file order. -/
def zoneEvents (events : List ProfilerEvent) (key : ZoneKey) : List ProfilerEvent :=
  events.filter fun e => e.key = key

/-- Events that are starts and ends only, balanced, with these matched pairs. -/
structure MatchedPairs (events : List ProfilerEvent)
    (pairs : List (ProfilerEvent × ProfilerEvent)) : Prop where
  marks : ∀ e ∈ events, e.IsMark
  balanced : Balanced EndsAfter (events.map ProfilerEvent.bracket) pairs

section Words

variable {expectedZones : List String} {e : ProfilerEvent} {key : ZoneKey}

private theorem zoneWord_cons (h : e.zone ∈ expectedZones) (events : List ProfilerEvent) :
    zoneWord expectedZones (e :: events) = (e.key, e.bracket) :: zoneWord expectedZones events := by
  simp [zoneWord, h]

private theorem zoneWord_cons_of_notMem (h : e.zone ∉ expectedZones) (events : List ProfilerEvent) :
    zoneWord expectedZones (e :: events) = zoneWord expectedZones events := by
  simp [zoneWord, h]

private theorem zoneEvents_cons (h : e.key = key) (events : List ProfilerEvent) :
    zoneEvents (e :: events) key = e :: zoneEvents events key := by
  simp [zoneEvents, h]

private theorem zoneEvents_cons_of_ne (h : e.key ≠ key) (events : List ProfilerEvent) :
    zoneEvents (e :: events) key = zoneEvents events key := by
  simp [zoneEvents, h]

/-- An expected key's own word is spelled by its events. -/
theorem ofKey_zoneWord (h : key.zone ∈ expectedZones) (events : List ProfilerEvent) :
    ofKey key (zoneWord expectedZones events) =
      (zoneEvents events key).map ProfilerEvent.bracket := by
  induction events with
  | nil => rfl
  | cons e events ih =>
    by_cases hkey : e.key = key
    · have hzone : e.zone ∈ expectedZones := by rwa [ProfilerEvent.zone, hkey]
      rw [zoneWord_cons hzone, zoneEvents_cons hkey, hkey, ofKey_cons_self, ih, List.map_cons]
    · rw [zoneEvents_cons_of_ne hkey, ← ih]
      by_cases hzone : e.zone ∈ expectedZones
      · rw [zoneWord_cons hzone, ofKey_cons_ne hkey]
      · rw [zoneWord_cons_of_notMem hzone]

/-- Zones that are not expected leave no brackets. -/
theorem ofKey_zoneWord_of_notMem (h : key.zone ∉ expectedZones) (events : List ProfilerEvent) :
    ofKey key (zoneWord expectedZones events) = [] := by
  rw [ofKey, zoneWord, List.filterMap_eq_nil_iff]
  intro entry hentry
  obtain ⟨e, he, rfl⟩ := List.mem_map.mp hentry
  have hzone : e.zone ∈ expectedZones := by simpa using (List.mem_filter.mp he).2
  refine if_neg fun hkey => h ?_
  rwa [← hkey]

end Words

/-- The stack of one key is replaced. -/
theorem ZoneState.stack_insert (state : ZoneState) (key : ZoneKey) (stack : List ℕ)
    (counts : AList fun _ : String => ℕ) (intervals : List ZoneInterval) :
    ZoneState.stack ⟨state.opened.insert key stack, counts, intervals⟩ =
      Function.update state.stack key stack := by
  funext key'
  by_cases hkey : key' = key
  · subst hkey
    rw [Function.update_self, ZoneState.stack, AList.lookup_insert]
    rfl
  · rw [Function.update_of_ne hkey, ZoneState.stack, AList.lookup_insert_ne hkey]
    rfl

/-- The count of one zone is replaced. -/
theorem ZoneState.count_insert (state : ZoneState) (zone zone' : String) (n : ℕ)
    (opened : AList fun _ : ZoneKey => List ℕ) (intervals : List ZoneInterval) :
    ZoneState.count ⟨opened, state.counts.insert zone n, intervals⟩ zone' =
      if zone' = zone then n else state.count zone' := by
  by_cases hzone : zone' = zone
  · subst hzone
    rw [if_pos rfl, ZoneState.count, AList.lookup_insert]
    rfl
  · rw [if_neg hzone, ZoneState.count, AList.lookup_insert_ne hzone]
    rfl

/-- The state holds the start times of the open events, with the intervals and counts of the
pairs closed since another state. -/
structure ZoneState.Tracks (before state : ZoneState) (opened : ZoneKey → List ProfilerEvent)
    (closed : List (ZoneKey × (ProfilerEvent × ProfilerEvent))) : Prop where
  stack : ∀ key, state.stack key = (opened key).map ProfilerEvent.time
  intervals :
    state.intervals = before.intervals ++ closed.map fun c => ⟨c.1, c.2.1.time, c.2.2.time⟩
  count : ∀ zone, state.count zone =
    before.count zone + closed.countP fun c => c.1.zone = zone

section Step

variable {env : CsvEnv} {expectedZones : List String} {state : ZoneState} {e : ProfilerEvent}

/-- Events of other zones are passed over. -/
theorem matchEvent_of_notMem (h : e.zone ∉ expectedZones) :
    matchEvent env expectedZones state e = .ok state :=
  if_pos h

/-- A start opens its zone. -/
theorem matchEvent_start (h : e.zone ∈ expectedZones) (hphase : e.phase = "ZONE_START") :
    matchEvent env expectedZones state e =
      .ok { state with opened := state.opened.insert e.key (e.time :: state.stack e.key) } := by
  rw [matchEvent, if_neg (not_not.mpr h), if_pos hphase]

/-- An end takes the latest start of its key, which it must not precede. -/
theorem matchEvent_end_iff (h : e.zone ∈ expectedZones) (hphase : e.phase = "ZONE_END")
    {state' : ZoneState} :
    matchEvent env expectedZones state e = .ok state' ↔
      ∃ start stack, state.stack e.key = start :: stack ∧ start ≤ e.time ∧ state' = {
        opened := state.opened.insert e.key stack
        counts := state.counts.insert e.zone (state.count e.zone + 1)
        intervals := state.intervals ++ [⟨e.key, start, e.time⟩] } := by
  have hother : e.phase ≠ "ZONE_START" := by rw [hphase]; decide
  rw [matchEvent, if_neg (not_not.mpr h), if_neg hother, if_pos hphase]
  cases state.stack e.key with
  | nil => simp
  | cons start stack =>
    by_cases htime : e.time < start
    · simp [htime]
    · simp [htime, not_lt.mp htime, eq_comm]

/-- A matched event starts or ends its zone. -/
theorem isMark_of_matchEvent (h : e.zone ∈ expectedZones) {state' : ZoneState}
    (hstep : matchEvent env expectedZones state e = .ok state') : e.IsMark := by
  rw [matchEvent, if_neg (not_not.mpr h)] at hstep
  split_ifs at hstep with h1 h2
  · exact .inl h1
  · exact .inr h2

private theorem bracket_start (h : e.phase = "ZONE_START") : e.bracket = .opens e := if_pos h

private theorem bracket_end (h : e.phase = "ZONE_END") : e.bracket = .closes e :=
  if_neg (by rw [h]; decide)

end Step

section Run

variable {env : CsvEnv} {expectedZones : List String}

/-- Open events and their times change together. -/
theorem map_time_update {state : ZoneState} {opened : ZoneKey → List ProfilerEvent}
    (hopened : ∀ key, state.stack key = (opened key).map ProfilerEvent.time) (key : ZoneKey)
    (events : List ProfilerEvent) (counts : AList fun _ : String => ℕ)
    (intervals : List ZoneInterval) (key' : ZoneKey) :
    ZoneState.stack ⟨state.opened.insert key (events.map ProfilerEvent.time), counts,
      intervals⟩ key' =
      (Function.update opened key events key').map ProfilerEvent.time := by
  rw [ZoneState.stack_insert]
  by_cases hkey : key' = key
  · rw [hkey, Function.update_self, Function.update_self]
  · rw [Function.update_of_ne hkey, Function.update_of_ne hkey, hopened]

/-- A pass that succeeds reads every expected key's word, and its intervals are the closed pairs. -/
theorem tracks_of_foldlM {events : List ProfilerEvent} {state state' : ZoneState}
    {opened : ZoneKey → List ProfilerEvent}
    (hopened : ∀ key, state.stack key = (opened key).map ProfilerEvent.time)
    (h : events.foldlM (matchEvent env expectedZones) state = .ok state') :
    (∀ e ∈ events, e.zone ∈ expectedZones → e.IsMark) ∧ ∃ opened' closed,
      scanKeys EndsAfter opened (zoneWord expectedZones events) = some (opened', closed) ∧
        state.Tracks state' opened' closed := by
  induction events generalizing state opened with
  | nil =>
    obtain rfl := Except.ok.inj h
    exact ⟨by simp, opened, [], rfl, hopened, by simp, by simp⟩
  | cons e events ih =>
    rw [List.foldlM_cons] at h
    obtain ⟨next, hstep, hrest⟩ := bind_eq_ok_iff.mp h
    rw [List.forall_mem_cons]
    by_cases hzone : e.zone ∈ expectedZones
    · have hmark := isMark_of_matchEvent hzone hstep
      rw [zoneWord_cons hzone]
      rcases hmark with hphase | hphase
      · rw [matchEvent_start hzone hphase, hopened] at hstep
        obtain rfl := Except.ok.inj hstep
        obtain ⟨hmarks, opened', closed, hscan, htracks⟩ :=
          ih (map_time_update hopened e.key (e :: opened e.key) _ _) hrest
        refine ⟨⟨fun _ => .inl hphase, hmarks⟩, opened', closed, ?_, ?_⟩
        · rw [bracket_start hphase, scanKeys, hscan]
        · exact ⟨htracks.stack, htracks.intervals, htracks.count⟩
      · obtain ⟨_, _, hstack, htime, rfl⟩ := (matchEvent_end_iff hzone hphase).mp hstep
        rw [hopened] at hstack
        obtain ⟨start, rest, hkey, rfl, rfl⟩ := List.map_eq_cons_iff.mp hstack
        obtain ⟨hmarks, opened', closed, hscan, htracks⟩ :=
          ih (map_time_update hopened e.key rest _ _) hrest
        refine ⟨⟨fun _ => .inr hphase, hmarks⟩, opened', (e.key, (start, e)) :: closed, ?_, ?_⟩
        · have hfits : EndsAfter start e := htime
          simp only [bracket_end hphase, scanKeys, hkey, if_pos hfits, hscan, Option.map_some]
        · refine ⟨htracks.stack, ?_, fun zone => ?_⟩
          · rw [htracks.intervals]
            simp
          · rw [htracks.count, ZoneState.count_insert, List.countP_cons]
            by_cases hz : zone = e.zone
            · subst hz
              simp [ProfilerEvent.zone]
              omega
            · have hne : e.key.zone ≠ zone := Ne.symm hz
              simp [hz, hne]
    · rw [matchEvent_of_notMem hzone] at hstep
      obtain rfl := Except.ok.inj hstep
      obtain ⟨hmarks, hread⟩ := ih hopened hrest
      rw [zoneWord_cons_of_notMem hzone]
      exact ⟨⟨fun h => absurd h hzone, hmarks⟩, hread⟩

/-- A word that is read is read by the pass. -/
theorem exists_foldlM {events : List ProfilerEvent} {state : ZoneState}
    {opened opened' : ZoneKey → List ProfilerEvent}
    {closed : List (ZoneKey × (ProfilerEvent × ProfilerEvent))}
    (hopened : ∀ key, state.stack key = (opened key).map ProfilerEvent.time)
    (hmarks : ∀ e ∈ events, e.zone ∈ expectedZones → e.IsMark)
    (h : scanKeys EndsAfter opened (zoneWord expectedZones events) = some (opened', closed)) :
    ∃ state', events.foldlM (matchEvent env expectedZones) state = .ok state' := by
  induction events generalizing state opened closed with
  | nil => exact ⟨state, rfl⟩
  | cons e events ih =>
    obtain ⟨hmark, hmarks⟩ := List.forall_mem_cons.mp hmarks
    rw [List.foldlM_cons]
    by_cases hzone : e.zone ∈ expectedZones
    · rw [zoneWord_cons hzone] at h
      rcases hmark hzone with hphase | hphase
      · rw [bracket_start hphase, scanKeys] at h
        rw [matchEvent_start hzone hphase, ok_bind, hopened]
        exact ih (map_time_update hopened e.key (e :: opened e.key) _ _) hmarks h
      · rw [bracket_end hphase] at h
        obtain ⟨start, rest, _, hkey, hfits, hscan, _⟩ := scanKeys_closes h
        have hstack : state.stack e.key = start.time :: rest.map ProfilerEvent.time := by
          rw [hopened, hkey, List.map_cons]
        rw [(matchEvent_end_iff hzone hphase).mpr ⟨_, _, hstack, hfits, rfl⟩, ok_bind]
        exact ih (map_time_update hopened e.key rest _ _) hmarks hscan
    · rw [zoneWord_cons_of_notMem hzone] at h
      rw [matchEvent_of_notMem hzone, ok_bind]
      exact ih hopened hmarks h

/-- The last check asks for empty stacks. -/
theorem forall_stack_eq_nil_iff {state : ZoneState} :
    ¬(state.opened.entries.any fun entry => entry.2 ≠ []) ↔ ∀ key, state.stack key = [] := by
  simp only [ne_eq, decide_not, List.any_eq_true, Bool.not_eq_true', decide_eq_false_iff_not,
    not_exists, not_and, not_not]
  constructor
  · intro h key
    rw [ZoneState.stack]
    cases hlookup : state.opened.lookup key with
    | none => rfl
    | some stack => exact h ⟨key, stack⟩ (AList.mem_lookup_iff.mp hlookup)
  · rintro h ⟨key, stack⟩ hentry
    have hkey := h key
    rwa [ZoneState.stack, AList.mem_lookup_iff.mpr hentry] at hkey

/-- Zones are matched exactly when the word is read to its end and each zone has closed a pair. -/
theorem matchZones_eq_ok_iff {events : List ProfilerEvent} {state : ZoneState} :
    matchZones env expectedZones events = .ok state ↔
      events.foldlM (matchEvent env expectedZones) {} = .ok state ∧ (∀ key, state.stack key = []) ∧
        ∀ zone ∈ expectedZones, 0 < state.count zone := by
  simp only [matchZones, bind_eq_ok_iff, throwIf_eq_ok_iff, forall_stack_eq_nil_iff, pure_eq_ok,
    Except.ok.injEq]
  constructor
  · rintro ⟨_, hfold, _, hstack, _, hcount, rfl⟩
    rw [not_not, List.filter_eq_nil_iff] at hcount
    exact ⟨hfold, hstack, fun zone h => Nat.pos_of_ne_zero fun h0 =>
      hcount zone h (by simpa using h0)⟩
  · rintro ⟨hfold, hstack, hcount⟩
    refine ⟨_, hfold, (), hstack, (), ?_, rfl⟩
    rw [not_not, List.filter_eq_nil_iff]
    intro zone h
    simpa using (hcount zone h).ne'

end Run

/-- Some event, balanced events under every expected key, and an end in every expected zone. -/
structure ZonesMatched (expectedZones : List String) (events : List ProfilerEvent) : Prop where
  nonempty : events ≠ []
  matched : ∀ key : ZoneKey, key.zone ∈ expectedZones →
    ∃ pairs, MatchedPairs (zoneEvents events key) pairs
  complete : ∀ zone ∈ expectedZones, ∃ e ∈ events, e.zone = zone ∧ e.phase = "ZONE_END"

section Matched

variable {env : CsvEnv} {expectedZones : List String} {events : List ProfilerEvent}

/-- All events are marks where those of each key are. -/
theorem marks_iff : (∀ e ∈ events, e.zone ∈ expectedZones → e.IsMark) ↔
    ∀ key : ZoneKey, key.zone ∈ expectedZones → ∀ e ∈ zoneEvents events key, e.IsMark := by
  constructor
  · intro h key hkey e he
    obtain ⟨hmem, hek⟩ := List.mem_filter.mp he
    obtain rfl : e.key = key := by simpa using hek
    exact h e hmem hkey
  · intro h e he hzone
    exact h e.key hzone e (List.mem_filter.mpr ⟨he, by simp⟩)

/-- The words of all keys are balanced when those of the expected ones are. -/
theorem forall_balanced_iff : (∀ key, ∃ pairs,
      Balanced EndsAfter (ofKey key (zoneWord expectedZones events)) pairs) ↔
    ∀ key : ZoneKey, key.zone ∈ expectedZones → ∃ pairs,
      Balanced EndsAfter ((zoneEvents events key).map ProfilerEvent.bracket) pairs := by
  refine forall_congr' fun key => ?_
  by_cases hkey : key.zone ∈ expectedZones
  · rw [ofKey_zoneWord hkey]
    simp [hkey]
  · rw [ofKey_zoneWord_of_notMem hkey]
    simp only [hkey, false_imp_iff, iff_true]
    exact ⟨[], .nil⟩

private theorem closer_bracket {e e' : ProfilerEvent} (hmark : e.IsMark) :
    e.bracket.closer? = some e' ↔ e = e' ∧ e.phase = "ZONE_END" := by
  rcases hmark with hphase | hphase
  · simp [bracket_start hphase, Bracket.closer?, hphase]
  · simp [bracket_end hphase, Bracket.closer?, hphase]

/-- A zone has closed a pair exactly when it has an end. -/
theorem exists_closed_iff {closed : List (ZoneKey × (ProfilerEvent × ProfilerEvent))}
    (hmarks : ∀ e ∈ events, e.zone ∈ expectedZones → e.IsMark)
    (h : scanKeys EndsAfter (fun _ => []) (zoneWord expectedZones events) =
      some (fun _ => [], closed)) {zone : String} (hzone : zone ∈ expectedZones) :
    0 < closed.countP (fun c => c.1.zone = zone) ↔
      ∃ e ∈ events, e.zone = zone ∧ e.phase = "ZONE_END" := by
  have hends : ∀ key : ZoneKey, key.zone ∈ expectedZones → (ofKey key closed).map Prod.snd =
      ((zoneEvents events key).map ProfilerEvent.bracket).filterMap Bracket.closer? := by
    intro key hkey
    rw [← ofKey_zoneWord hkey]
    exact (balanced_ofKey h key).pairs.2
  rw [List.countP_pos_iff]
  constructor
  · rintro ⟨⟨key, pair⟩, hmem, hkey⟩
    obtain rfl : key.zone = zone := by simpa using hkey
    have hpair : pair.2 ∈ (ofKey key closed).map Prod.snd :=
      List.mem_map_of_mem (mem_ofKey.mpr hmem)
    rw [hends key hzone, List.filterMap_map, List.mem_filterMap] at hpair
    obtain ⟨e, he, hcloser⟩ := hpair
    obtain ⟨-, hphase⟩ := (closer_bracket (marks_iff.mp hmarks key hzone e he)).mp hcloser
    obtain ⟨hevent, hek⟩ := List.mem_filter.mp he
    exact ⟨e, hevent, congrArg ZoneKey.zone (by simpa using hek), hphase⟩
  · rintro ⟨e, he, rfl, hphase⟩
    have hcloser : e ∈ (ofKey e.key closed).map Prod.snd := by
      rw [hends e.key hzone, List.filterMap_map, List.mem_filterMap]
      exact ⟨e, List.mem_filter.mpr ⟨he, by simp⟩, (closer_bracket (.inr hphase)).mpr ⟨rfl, hphase⟩⟩
    obtain ⟨pair, hpair, -⟩ := List.mem_map.mp hcloser
    exact ⟨(e.key, pair), mem_ofKey.mp hpair, by simp [ProfilerEvent.zone]⟩

/-- What a successful matching has read. -/
theorem exists_closed_of_matchZones {state : ZoneState}
    (h : matchZones env expectedZones events = .ok state) :
    (∀ e ∈ events, e.zone ∈ expectedZones → e.IsMark) ∧
    (∀ zone ∈ expectedZones, ∃ e ∈ events, e.zone = zone ∧ e.phase = "ZONE_END") ∧ ∃ closed,
      scanKeys EndsAfter (fun _ => []) (zoneWord expectedZones events) =
        some (fun _ => [], closed) ∧
      state.intervals = closed.map fun c => ⟨c.1, c.2.1.time, c.2.2.time⟩ := by
  obtain ⟨hfold, hstack, hcount⟩ := matchZones_eq_ok_iff.mp h
  obtain ⟨hmarks, opened', closed, hscan, htracks⟩ :=
    @tracks_of_foldlM _ _ _ _ _ (fun _ => []) (fun _ => rfl) hfold
  have hempty : opened' = fun _ => [] := by
    funext key
    exact List.map_eq_nil_iff.mp ((htracks.stack key).symm.trans (hstack key))
  subst hempty
  refine ⟨hmarks, fun zone hzone => ?_, closed, hscan, by rw [htracks.intervals]; rfl⟩
  rw [← exists_closed_iff hmarks hscan hzone]
  have hpos := hcount zone hzone
  rw [htracks.count] at hpos
  simpa [ZoneState.count] using hpos

/-- Matching succeeds exactly on balanced keys and complete zones. -/
theorem exists_matchZones_iff (hne : events ≠ []) :
    (∃ state, matchZones env expectedZones events = .ok state) ↔
      ZonesMatched expectedZones events := by
  constructor
  · rintro ⟨state, h⟩
    obtain ⟨hmarks, hcomplete, closed, hscan, -⟩ := exists_closed_of_matchZones h
    refine ⟨hne, fun key hkey => ?_, hcomplete⟩
    obtain ⟨pairs, hpairs⟩ := forall_balanced_iff.mp (scanKeys_nil_iff.mp ⟨closed, hscan⟩) key hkey
    exact ⟨pairs, marks_iff.mp hmarks key hkey, hpairs⟩
  · intro h
    have hmarks : ∀ e ∈ events, e.zone ∈ expectedZones → e.IsMark := by
      refine marks_iff.mpr fun key hkey => ?_
      obtain ⟨_, hpairs⟩ := h.matched key hkey
      exact hpairs.marks
    obtain ⟨closed, hscan⟩ := scanKeys_nil_iff.mpr (forall_balanced_iff.mpr fun key hkey => by
      obtain ⟨pairs, hpairs⟩ := h.matched key hkey
      exact ⟨pairs, hpairs.balanced⟩)
    obtain ⟨state, hfold⟩ := @exists_foldlM env _ _ {} _ _ _ (fun _ => rfl) hmarks hscan
    obtain ⟨-, opened', closed', hscan', htracks⟩ :=
      @tracks_of_foldlM _ _ _ _ _ (fun _ => []) (fun _ => rfl) hfold
    obtain ⟨rfl, rfl⟩ := Prod.mk.inj (Option.some.inj (hscan.symm.trans hscan'))
    refine ⟨state, matchZones_eq_ok_iff.mpr ⟨hfold, htracks.stack, fun zone hzone => ?_⟩⟩
    have hpos := (exists_closed_iff hmarks hscan hzone).mpr (h.complete zone hzone)
    rw [htracks.count]
    simpa [ZoneState.count] using hpos

/-- The intervals of a key are its matched pairs. -/
theorem filter_intervals {state : ZoneState} (h : matchZones env expectedZones events = .ok state)
    {key : ZoneKey} (hkey : key.zone ∈ expectedZones) :
    ∃ pairs, MatchedPairs (zoneEvents events key) pairs ∧
      state.intervals.filter (fun i => i.key = key) =
        pairs.map fun pair => ⟨key, pair.1.time, pair.2.time⟩ := by
  obtain ⟨hmarks, -, closed, hscan, hintervals⟩ := exists_closed_of_matchZones h
  have hbalanced := balanced_ofKey hscan key
  rw [ofKey_zoneWord hkey] at hbalanced
  refine ⟨_, ⟨marks_iff.mp hmarks key hkey, hbalanced⟩, ?_⟩
  rw [hintervals]
  clear hscan hintervals hbalanced
  induction closed with
  | nil => rfl
  | cons c closed ih =>
    obtain ⟨key', pair⟩ := c
    by_cases hk : key' = key
    · subst hk
      rw [List.map_cons, List.filter_cons_of_pos (by simp), ih, ofKey_cons_self, List.map_cons]
    · rw [List.map_cons, List.filter_cons_of_neg (by simpa using hk), ih, ofKey_cons_ne hk]

/-- Every interval belongs to an expected zone. -/
theorem zone_mem_of_mem_intervals {state : ZoneState}
    (h : matchZones env expectedZones events = .ok state) {i : ZoneInterval}
    (hi : i ∈ state.intervals) : i.key.zone ∈ expectedZones := by
  obtain ⟨-, -, closed, hscan, hintervals⟩ := exists_closed_of_matchZones h
  rw [hintervals] at hi
  obtain ⟨⟨key, pair⟩, hmem, rfl⟩ := List.mem_map.mp hi
  by_contra hzone
  have hbalanced := balanced_ofKey hscan key
  rw [ofKey_zoneWord_of_notMem hzone] at hbalanced
  have hpairs := hbalanced.unique .nil
  have hmem' := mem_ofKey.mpr hmem
  rw [hpairs] at hmem'
  cases hmem'

/-- Pairs use every start and every end once. -/
theorem MatchedPairs.perm {events : List ProfilerEvent}
    {pairs : List (ProfilerEvent × ProfilerEvent)} (h : MatchedPairs events pairs) :
    (pairs.map Prod.fst).Perm (events.filter fun e => e.phase = "ZONE_START") ∧
      pairs.map Prod.snd = events.filter fun e => e.phase = "ZONE_END" := by
  obtain ⟨hmarks, hbalanced⟩ := h
  obtain ⟨hstarts, hends⟩ := hbalanced.pairs
  have hopeners : (events.map ProfilerEvent.bracket).filterMap Bracket.opener? =
      events.filter fun e => e.phase = "ZONE_START" := by
    rw [List.filterMap_map, ← List.filterMap_eq_filter]
    refine List.filterMap_congr fun e he => ?_
    rcases hmarks e he with hphase | hphase
    · simp [bracket_start hphase, Bracket.opener?, hphase, Option.guard]
    · simp [bracket_end hphase, Bracket.opener?, hphase, Option.guard]
  have hclosers : (events.map ProfilerEvent.bracket).filterMap Bracket.closer? =
      events.filter fun e => e.phase = "ZONE_END" := by
    rw [List.filterMap_map, ← List.filterMap_eq_filter]
    refine List.filterMap_congr fun e he => ?_
    rcases hmarks e he with hphase | hphase
    · simp [bracket_start hphase, Bracket.closer?, hphase, Option.guard]
    · simp [bracket_end hphase, Bracket.closer?, hphase, Option.guard]
  exact ⟨hopeners ▸ hstarts, hclosers ▸ hends⟩

/-- Keys that keep their own events keep their intervals. -/
theorem intervals_perm {events' : List ProfilerEvent} {state state' : ZoneState}
    (h : matchZones env expectedZones events = .ok state)
    (h' : matchZones env expectedZones events' = .ok state')
    (hkeys : ∀ key : ZoneKey, key.zone ∈ expectedZones →
      zoneEvents events key = zoneEvents events' key) :
    state.intervals.Perm state'.intervals := by
  have hfilter : ∀ key : ZoneKey, key.zone ∈ expectedZones →
      state.intervals.filter (fun i => i.key = key) =
        state'.intervals.filter fun i => i.key = key := by
    intro key hkey
    obtain ⟨pairs, hpairs, hintervals⟩ := filter_intervals h hkey
    obtain ⟨pairs', hpairs', hintervals'⟩ := filter_intervals h' hkey
    rw [hkeys key hkey] at hpairs
    rw [hintervals, hintervals', hpairs.balanced.unique hpairs'.balanced]
  rw [List.perm_iff_count]
  intro i
  by_cases hzone : i.key.zone ∈ expectedZones
  · have hcount : ∀ l : List ZoneInterval,
        l.count i = (l.filter fun j => j.key = i.key).count i := fun l =>
      (List.count_filter (by simp)).symm
    rw [hcount, hcount state'.intervals, hfilter i.key hzone]
  · rw [List.count_eq_zero.mpr fun hi => hzone (zone_mem_of_mem_intervals h hi),
      List.count_eq_zero.mpr fun hi => hzone (zone_mem_of_mem_intervals h' hi)]

end Matched

/-- A nonempty file with a header, whose event rows are well formed and read as these events. -/
structure CsvFile.Holds (env : CsvEnv) (file : CsvFile) (events : List ProfilerEvent) : Prop where
  nonempty : file.bytes ≠ []
  reads : ∃ metadata, readRows env 1 {} file.rows = .ok ⟨true, metadata, events⟩

/-- A row that is read as an event wherever it stands. -/
structure EventRow (env : CsvEnv) (row : List String) (event : ProfilerEvent) : Prop where
  not_blank : ¬row.all fun cell => env.strip cell = ""
  reads : ∀ line, readEvent env line row = .ok event

/-- Rows of events are read in order. -/
theorem readRows_eventRows {env : CsvEnv} {rows : List (List String)} {events : List ProfilerEvent}
    (h : List.Forall₂ (EventRow env) rows events) (line : ℕ) (metadata : List String)
    (before : List ProfilerEvent) :
    readRows env line ⟨true, metadata, before⟩ rows = .ok ⟨true, metadata, before ++ events⟩ := by
  induction h generalizing line before with
  | nil => rw [readRows, List.append_nil]
  | cons hrow _ ih =>
    rw [readRows, readRow, if_neg hrow.not_blank, if_pos rfl, hrow.reads, ok_bind, pure_eq_ok,
      ok_bind, ih, List.append_assoc, List.singleton_append]

/-- A header and event rows make a file that holds their events. -/
theorem CsvFile.holds_of_rows {env : CsvEnv} {file : CsvFile} {header : List String}
    {rows : List (List String)} {events : List ProfilerEvent} (hne : file.bytes ≠ [])
    (hfile : file.rows = header :: rows) (hblank : ¬header.all fun cell => env.strip cell = "")
    (hheader : header.map (fun cell => env.lower (env.strip cell)) = csvColumns)
    (h : List.Forall₂ (EventRow env) rows events) : file.Holds env events := by
  have hzone : ¬"zone name" ∉ csvColumns := by decide
  have hnodup : ¬¬csvColumns.Nodup := by decide
  refine ⟨hne, [], ?_⟩
  rw [hfile, readRows, readRow, if_neg hblank, if_neg Bool.false_ne_true, hheader, if_neg hzone,
    if_neg hnodup, if_neg (not_not.mpr rfl), ok_bind, readRows_eventRows h, List.nil_append]

/-- What an accepted file reports of its events. -/
theorem CsvFile.Holds.validateCsv_eq {env : CsvEnv} {file : CsvFile} {events : List ProfilerEvent}
    (h : file.Holds env events) {expectedZones : List String} {report : ZoneReport}
    (hreport : validateCsv env (some file) expectedZones = .ok report) :
    events ≠ [] ∧ ∃ state, matchZones env expectedZones events = .ok state ∧
      report.intervals = state.intervals := by
  obtain ⟨metadata, hrows⟩ := h.reads
  simp only [validateCsv, bind_eq_ok_iff, throwIf_eq_ok_iff, hrows, Except.ok.injEq,
    exists_eq_left'] at hreport
  obtain ⟨_, _, _, _, _, hne, state, hstate, hset⟩ := hreport
  exact ⟨hne, state, hstate, by rw [← Except.ok.inj hset]⟩

/-- A file is accepted where its zones match. -/
theorem CsvFile.Holds.exists_validateCsv_iff {env : CsvEnv} {file : CsvFile}
    {events : List ProfilerEvent} (h : file.Holds env events) {expectedZones : List String} :
    (∃ report, validateCsv env (some file) expectedZones = .ok report) ↔
      ZonesMatched expectedZones events := by
  constructor
  · rintro ⟨report, hreport⟩
    obtain ⟨hne, state, hstate, -⟩ := h.validateCsv_eq hreport
    exact (exists_matchZones_iff hne).mp ⟨state, hstate⟩
  · intro hmatched
    obtain ⟨state, hstate⟩ := (@exists_matchZones_iff env _ _ hmatched.nonempty).mpr hmatched
    obtain ⟨metadata, hrows⟩ := h.reads
    refine ⟨{
      csvSha256 := env.sha256 file.bytes
      metadata
      eventRows := events.length
      projectZoneIntervals := state.counts
      intervals := state.intervals }, ?_⟩
    rw [validateCsv, throwIf_of_not h.nonempty, ok_bind, hrows, ok_bind,
      throwIf_of_not (by simp), ok_bind, throwIf_of_not hmatched.nonempty, ok_bind, hstate, ok_bind]
    rfl

/-- Reordering events that keeps each expected key's own order keeps matched zones matched. -/
theorem ZonesMatched.of_zoneEvents {expectedZones : List String}
    {events events' : List ProfilerEvent}
    (h : ZonesMatched expectedZones events) (hne : events' ≠ [])
    (hkeys : ∀ key : ZoneKey, key.zone ∈ expectedZones →
      zoneEvents events key = zoneEvents events' key) : ZonesMatched expectedZones events' := by
  refine ⟨hne, fun key hkey => hkeys key hkey ▸ h.matched key hkey, fun zone hzone => ?_⟩
  obtain ⟨e, he, rfl, hphase⟩ := h.complete zone hzone
  have hmem : e ∈ zoneEvents events' e.key := by
    rw [← hkeys e.key hzone]
    exact List.mem_filter.mpr ⟨he, by simp⟩
  exact ⟨e, (List.mem_filter.mp hmem).1, rfl, hphase⟩

/-- Which files are valid, what their intervals are, and that both depend on each expected key's own
events only. -/
theorem validateCsv_zones (env : CsvEnv) (expectedZones : List String) :
    (∀ (file : CsvFile) (events : List ProfilerEvent), file.Holds env events →
      ((∃ report, validateCsv env (some file) expectedZones = .ok report) ↔
        ZonesMatched expectedZones events) ∧
      ∀ report, validateCsv env (some file) expectedZones = .ok report →
        (∀ i ∈ report.intervals, i.key.zone ∈ expectedZones) ∧
        ∀ key : ZoneKey, key.zone ∈ expectedZones →
          ∃ pairs, MatchedPairs (zoneEvents events key) pairs ∧
            report.intervals.filter (fun i => i.key = key) =
              (pairs.map fun pair => ⟨key, pair.1.time, pair.2.time⟩) ∧
            (pairs.map Prod.fst).Perm
              ((zoneEvents events key).filter fun e => e.phase = "ZONE_START") ∧
            pairs.map Prod.snd = (zoneEvents events key).filter fun e => e.phase = "ZONE_END") ∧
    ∀ (file file' : CsvFile) (events events' : List ProfilerEvent),
      file.Holds env events → file'.Holds env events' → events ≠ [] → events' ≠ [] →
      (∀ key : ZoneKey, key.zone ∈ expectedZones →
        zoneEvents events key = zoneEvents events' key) →
      ((∃ report, validateCsv env (some file) expectedZones = .ok report) ↔
        ∃ report, validateCsv env (some file') expectedZones = .ok report) ∧
      ∀ report report', validateCsv env (some file) expectedZones = .ok report →
        validateCsv env (some file') expectedZones = .ok report' →
        report.intervals.Perm report'.intervals := by
  refine ⟨fun file events h => ⟨h.exists_validateCsv_iff, fun report hreport => ?_⟩, ?_⟩
  · obtain ⟨-, state, hstate, hintervals⟩ := h.validateCsv_eq hreport
    rw [hintervals]
    refine ⟨fun _ => zone_mem_of_mem_intervals hstate, fun key hkey => ?_⟩
    obtain ⟨pairs, hpairs, hfilter⟩ := filter_intervals hstate hkey
    exact ⟨pairs, hpairs, hfilter, hpairs.perm⟩
  · intro file file' events events' h h' hne hne' hkeys
    rw [h.exists_validateCsv_iff, h'.exists_validateCsv_iff]
    refine ⟨⟨fun hm => hm.of_zoneEvents hne' hkeys,
      fun hm => hm.of_zoneEvents hne fun key hkey => (hkeys key hkey).symm⟩, ?_⟩
    intro report report' hreport hreport'
    obtain ⟨-, state, hstate, hintervals⟩ := h.validateCsv_eq hreport
    obtain ⟨-, state', hstate', hintervals'⟩ := h'.validateCsv_eq hreport'
    rw [hintervals, hintervals']
    exact intervals_perm hstate hstate' hkeys

/-- Text functions on plain cells: nothing to strip, lower or quote, and decimal digits. -/
def plainCsv : CsvEnv where
  strip := id
  lower := id
  int text := if text.toList ≠ [] ∧ text.toList.all Char.isDigit then
    some (text.toList.foldl (fun n c => 10 * n + (c.toNat - '0'.toNat)) 0) else none
  repr := id
  sha256 _ := ""

/-- A zone from cycle 100 to cycle 200. -/
def readerFile : CsvFile where
  bytes := [0]
  rows := [csvColumns,
    ["0", "1", "1", "BRISC", "12", "100", "0", "0", "", "", "row_reduce_reader", "ZONE_START", "10",
      "kernel.cpp", ""],
    ["0", "1", "1", "BRISC", "13", "200", "0", "0", "", "", "row_reduce_reader", "ZONE_END", "10",
      "kernel.cpp", ""]]

def readerKey : ZoneKey :=
  ⟨0, 1, 1, "BRISC", 0, none, none, "row_reduce_reader", "kernel.cpp", 10⟩

def readerEvents : List ProfilerEvent :=
  [⟨readerKey, 12, 100, 0, "ZONE_START"⟩, ⟨readerKey, 13, 200, 0, "ZONE_END"⟩]

private theorem readerFile_holds : readerFile.Holds plainCsv readerEvents :=
  CsvFile.holds_of_rows (by decide) rfl (by decide) rfl
    (.cons ⟨by decide, fun _ => rfl⟩ (.cons ⟨by decide, fun _ => rfl⟩ .nil))

/-- A file with one zone is accepted. -/
theorem validateCsv_zones_reader :
    ∃ report, validateCsv plainCsv (some readerFile) ["row_reduce_reader"] = .ok report := by
  have hmatched : ZonesMatched ["row_reduce_reader"] readerEvents := by
    refine ⟨by simp [readerEvents], fun key _ => ?_, ?_⟩
    · by_cases hkey : readerKey = key
      · subst hkey
        have hpair : Balanced EndsAfter (readerEvents.map ProfilerEvent.bracket) _ :=
          .nest .nil (by decide : EndsAfter ⟨readerKey, 12, 100, 0, "ZONE_START"⟩
            ⟨readerKey, 13, 200, 0, "ZONE_END"⟩) .nil
        have hmarks : ∀ e ∈ zoneEvents readerEvents readerKey, e.IsMark :=
          List.forall_mem_cons.mpr ⟨.inl rfl, List.forall_mem_cons.mpr ⟨.inr rfl, by simp⟩⟩
        exact ⟨_, hmarks, hpair⟩
      · refine ⟨[], ?_⟩
        have hempty : zoneEvents readerEvents key = [] := by simp [zoneEvents, readerEvents, hkey]
        rw [hempty]
        exact ⟨by simp, .nil⟩
    · intro zone hzone
      obtain rfl := List.mem_singleton.mp hzone
      exact ⟨⟨readerKey, 13, 200, 0, "ZONE_END"⟩, by simp [readerEvents], rfl, rfl⟩
  exact ((validateCsv_zones plainCsv _).1 readerFile readerEvents readerFile_holds).1.mpr hmatched

end RowReduce
