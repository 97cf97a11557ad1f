import RowReduce.Correctness.MatrixPass
import RowReduce.Tools.FetchSimulator

/-!
# Interrupted fetches

Fetches into one directory, each interrupted anywhere. An asset that is found is
there to stay, and one that appears is the pinned release, so that a later fetch
needs no repair and the preflight of the matrix accepts what it leaves.
-/

namespace RowReduce

open Fallible Hexadecimal Journal Renaming

variable {sha256 : List Byte → String}

/-- The preflight of the matrix pins the same releases. -/
theorem simulatorDigests_releases : ∀ entry ∈ ttsimReleases,
    simulatorDigests.lookup entry.2.asset = some entry.2.sha256 := by decide

private theorem part_ne_asset : ∀ entry ∈ ttsimReleases, ∀ other ∈ ttsimReleases,
    entry.2.part ≠ other.2.asset := by decide

private theorem descriptorName_ne_asset :
    ∀ entry ∈ ttsimReleases, descriptorName ≠ entry.2.asset := by
  decide

private theorem release_eq_of_asset : ∀ entry ∈ ttsimReleases, ∀ other ∈ ttsimReleases,
    entry.2.asset = other.2.asset → entry = other := by decide

private theorem mem_of_lookup_releases {architecture : String} {release : Release}
    (h : ttsimReleases.lookup architecture = some release) :
    (architecture, release) ∈ ttsimReleases := by
  obtain ⟨before, after, heq, _⟩ := List.lookup_eq_some_iff.mp h
  rw [heq]
  exact List.mem_append_right _ List.mem_cons_self

/-- The steps leave every asset alone. -/
def LeavesAssets (steps : List (Step String Byte)) : Prop :=
  ∀ entry ∈ ttsimReleases, ∀ s ∈ steps, s.Avoids entry.2.asset

private theorem leavesAssets_nil : LeavesAssets [] := fun _ _ _ hs => by cases hs

/-- Writing a partial download leaves the assets alone. -/
theorem leavesAssets_part {entry : String × Release} (h : entry ∈ ttsimReleases)
    (bytes : List Byte) : LeavesAssets (writes entry.2.part bytes) := fun other hother =>
  avoids_writes (part_ne_asset entry h other hother) bytes

/-- So does the end of a fetch. -/
theorem leavesAssets_finishFetch (w : FetchWorld) (release : Release) (d : Disk) :
    LeavesAssets (finishFetch sha256 w release d).1 := by
  intro entry hentry
  unfold finishFetch
  split_ifs
  · cases w.descriptor with
    | error e => exact leavesAssets_nil entry hentry
    | ok text => exact avoids_writes (descriptorName_ne_asset entry hentry) text
  · exact leavesAssets_nil entry hentry

/-- What a fetch can do: no step is on an asset, or a verified download is renamed to the asset
that was not there. -/
theorem fetchMain_cases (w : FetchWorld) (d : Disk) :
    LeavesAssets (fetchMain sha256 w d).1 ∨
      ∃ entry ∈ ttsimReleases, ∃ bytes rest, d.lookup entry.2.asset = none ∧
        sha256 bytes = entry.2.sha256 ∧ LeavesAssets rest ∧
        (fetchMain sha256 w d).1 = writes entry.2.part bytes ++
          .rename entry.2.part entry.2.asset :: rest := by
  unfold fetchMain
  cases hrelease : ttsimReleases.lookup w.architecture with
  | none => exact Or.inl leavesAssets_nil
  | some release =>
    have hmem := mem_of_lookup_releases hrelease
    dsimp only
    split_ifs with hsystem
    · exact Or.inl leavesAssets_nil
    cases w.mkdir with
    | error e => exact Or.inl leavesAssets_nil
    | ok _ =>
      dsimp only
      rw [fetchAsset]
      by_cases hfound : (d.lookup release.asset).isSome = true
      · rw [if_pos hfound]
        exact Or.inl (leavesAssets_finishFetch w release d)
      rw [if_neg hfound]
      cases w.download release.url with
      | refused e => exact Or.inl leavesAssets_nil
      | broken bytes e => exact Or.inl (leavesAssets_part hmem bytes)
      | complete bytes =>
        dsimp only
        by_cases hsha : sha256 bytes = release.sha256
        · rw [if_pos hsha]
          exact Or.inr ⟨_, hmem, bytes, _, Option.not_isSome_iff_eq_none.mp hfound, hsha,
            leavesAssets_finishFetch w release _, List.append_assoc _ _ _⟩
        · rw [if_neg hsha]
          exact Or.inl (leavesAssets_part hmem bytes)

/-- The asset is as it was, or the pinned one where there was none. -/
def KeptOrPinned (sha256 : List Byte → String) (release : Release) (d d' : Disk) : Prop :=
  d'.lookup release.asset = d.lookup release.asset ∨
    d.lookup release.asset = none ∧ (d'.lookup release.asset).map sha256 = some release.sha256

/-- An asset is kept or pinned over two sessions. -/
theorem KeptOrPinned.trans {release : Release} {d d' d'' : Disk}
    (h : KeptOrPinned sha256 release d d') (h' : KeptOrPinned sha256 release d' d'') :
    KeptOrPinned sha256 release d d'' := by
  rcases h with h | ⟨hnone, hpinned⟩
  · rwa [KeptOrPinned, ← h]
  · rcases h' with h' | ⟨hnone', _⟩
    · exact Or.inr ⟨hnone, h' ▸ hpinned⟩
    · rw [hnone'] at hpinned
      cases hpinned

/-- However far a fetch gets, it keeps the assets or publishes the pinned one. -/
theorem keptOrPinned_apply {entry : String × Release} (h : entry ∈ ttsimReleases)
    (a : FetchAttempt) (d : Disk) : KeptOrPinned sha256 entry.2 d (a.apply sha256 d) := by
  rcases @fetchMain_cases sha256 a.world d with
    hleaves | ⟨other, hother, bytes, rest, hnone, hsha, hrest, hsteps⟩
  · exact Or.inl (lookup_runSteps_of_avoids fun s hs =>
      hleaves entry h s (List.mem_of_mem_take hs))
  rw [KeptOrPinned, FetchAttempt.apply, hsteps]
  by_cases hsame : other = entry
  · subst hsame
    rcases lookup_publish_take (lookup_writes d other.2.part bytes)
      (leavesAssets_part hother bytes other h) (hrest other h) a.cut with hkept | hpublished
    · exact Or.inl hkept
    · rw [hpublished]
      exact Or.inr ⟨hnone, congrArg some hsha⟩
  · -- The fetch is for the other architecture, whose names differ.
    refine Or.inl (lookup_runSteps_of_avoids fun s hs => ?_)
    rcases List.mem_append.mp (List.mem_of_mem_take hs) with hs | hs
    · exact leavesAssets_part hother bytes entry h s hs
    · rcases List.mem_cons.mp hs with rfl | hs
      · exact ⟨part_ne_asset other hother entry h, fun heq =>
          hsame (release_eq_of_asset other hother entry h heq)⟩
      · exact hrest entry h s hs

/-- What a fetch needs in order to end with its document. -/
structure Fetchable (sha256 : List Byte → String) (w : FetchWorld) (d : Disk) (release : Release)
    (text : List Byte) : Prop where
  pinned : ttsimReleases.lookup w.architecture = some release
  system : w.system = "Linux"
  mkdir : w.mkdir = .ok ()
  asset : (d.lookup release.asset).map sha256 = some release.sha256 ∨
    d.lookup release.asset = none ∧
      ∃ bytes, w.download release.url = .complete bytes ∧ sha256 bytes = release.sha256
  descriptor : w.descriptor = .ok text

/-- What a fetch leaves. -/
structure Fetched (sha256 : List Byte → String) (d : Disk) (release : Release)
    (text : List Byte) : Prop where
  asset : (d.lookup release.asset).map sha256 = some release.sha256
  descriptor : d.lookup descriptorName = some text

private theorem fetchAsset_ne_printed (sha256 : List Byte → String) (w : FetchWorld)
    (release : Release)
    (d : Disk) (document : Json) :
    (fetchAsset sha256 w release d).2 ≠ .error (.printed document) := by
  unfold fetchAsset
  split_ifs
  · simp
  cases w.download release.url with
  | refused e => simp
  | broken bytes e => simp
  | complete bytes =>
    dsimp only
    split_ifs <;> simp

/-- A fetch ends with the document where the asset is pinned and the descriptor is read. -/
theorem finishFetch_eq_printed_iff {w : FetchWorld} {release : Release} {d : Disk}
    {document : Json} :
    (finishFetch sha256 w release d).2 = .printed document ↔
      (d.lookup release.asset).map sha256 = some release.sha256 ∧
        (∃ text, w.descriptor = .ok text) ∧ document = fetchDocument w release := by
  unfold finishFetch
  split_ifs with hsha
  · cases w.descriptor with
    | error e => simp
    | ok text => simp [hsha, eq_comm]
  · simp [hsha]

/-- The asset is verified after the download exactly when it was there and pinned, or was missing
and the pinned one is downloaded. -/
theorem fetchAsset_verified_iff {w : FetchWorld} {release : Release} {d : Disk} :
    (fetchAsset sha256 w release d).2 = .ok () ∧
        ((runSteps d (fetchAsset sha256 w release d).1).lookup release.asset).map sha256 =
          some release.sha256 ↔
      (d.lookup release.asset).map sha256 = some release.sha256 ∨
        d.lookup release.asset = none ∧
          ∃ bytes, w.download release.url = .complete bytes ∧ sha256 bytes = release.sha256 := by
  unfold fetchAsset
  cases hfound : d.lookup release.asset with
  | some bytes => simp [runSteps, hfound]
  | none =>
    cases w.download release.url with
    | refused e => simp
    | broken bytes e => simp
    | complete bytes =>
      by_cases hsha : sha256 bytes = release.sha256
      · have hrenamed : (runSteps d (writes release.part bytes ++
            [.rename release.part release.asset])).lookup release.asset = some bytes := by
          rw [runSteps_append]
          exact lookup_rename (lookup_writes d release.part bytes)
        simp [hsha, hrenamed]
      · simp [hsha]

/-- What a fetch writes and prints where everything is there. -/
theorem Fetchable.fetchMain_eq {w : FetchWorld} {d : Disk} {release : Release} {text : List Byte}
    (h : Fetchable sha256 w d release text) : fetchMain sha256 w d =
      ((fetchAsset sha256 w release d).1 ++ writes descriptorName text,
        .printed (fetchDocument w release)) := by
  obtain ⟨hok, hverified⟩ := fetchAsset_verified_iff.mpr h.asset
  rw [fetchMain, h.pinned]
  dsimp only
  rw [if_neg (not_not_intro h.system), h.mkdir]
  cases hasset : fetchAsset sha256 w release d with
  | mk steps result =>
    rw [hasset] at hok hverified
    obtain rfl : result = .ok () := hok
    dsimp only at hverified ⊢
    rw [finishFetch, if_pos hverified, h.descriptor]

/-- A fetch ends with its document in exactly this case. -/
theorem fetchMain_eq_printed_iff {w : FetchWorld} {d : Disk} {document : Json} :
    (fetchMain sha256 w d).2 = .printed document ↔
      ∃ release text, Fetchable sha256 w d release text ∧ document = fetchDocument w release := by
  constructor
  · intro h
    unfold fetchMain at h
    cases hrelease : ttsimReleases.lookup w.architecture with
    | none => rw [hrelease] at h; cases h
    | some release =>
      rw [hrelease] at h
      dsimp only at h
      split_ifs at h with hsystem
      cases hmkdir : w.mkdir with
      | error e => rw [hmkdir] at h; cases h
      | ok _ =>
        rw [hmkdir] at h
        have hverified := @fetchAsset_verified_iff sha256 w release d
        have hunprinted := fetchAsset_ne_printed sha256 w release d document
        cases hasset : fetchAsset sha256 w release d with
        | mk steps result =>
          rw [hasset] at h hverified hunprinted
          cases result with
          | error e => exact absurd (congrArg Except.error h) hunprinted
          | ok _ =>
            obtain ⟨hsha, ⟨text, htext⟩, rfl⟩ := finishFetch_eq_printed_iff.mp h
            exact ⟨release, text, ⟨hrelease, not_not.mp hsystem, hmkdir,
              hverified.mp ⟨rfl, hsha⟩, htext⟩, rfl⟩
  · rintro ⟨release, text, h, rfl⟩
    rw [h.fetchMain_eq]

/-- It leaves the pinned asset and the descriptor. -/
theorem Fetchable.fetched {w : FetchWorld} {d : Disk} {release : Release} {text : List Byte}
    (h : Fetchable sha256 w d release text) :
    Fetched sha256 (runSteps d (fetchMain sha256 w d).1) release text := by
  have hmem := mem_of_lookup_releases h.pinned
  rw [h.fetchMain_eq, runSteps_append]
  constructor
  · rw [lookup_runSteps_of_avoids (avoids_writes (descriptorName_ne_asset _ hmem) text)]
    exact (fetchAsset_verified_iff.mpr h.asset).2
  · exact lookup_writes _ descriptorName text

/-- Over any attempts an asset is kept or pinned. -/
theorem keptOrPinned_session {entry : String × Release} (h : entry ∈ ttsimReleases)
    (attempts : List FetchAttempt) (d : Disk) :
    KeptOrPinned sha256 entry.2 d (fetchSession sha256 d attempts) := by
  induction attempts generalizing d with
  | nil => exact Or.inl rfl
  | cons a attempts ih => exact (keptOrPinned_apply h a d).trans (ih (a.apply sha256 d))

/-- Every asset that is there is the pinned one. -/
def Pinned (sha256 : List Byte → String) (d : Disk) : Prop :=
  ∀ entry ∈ ttsimReleases, ∀ bytes, d.lookup entry.2.asset = some bytes →
    sha256 bytes = entry.2.sha256

/-- Pinned assets stay pinned. -/
theorem Pinned.session {d : Disk} (h : Pinned sha256 d) (attempts : List FetchAttempt) :
    Pinned sha256 (fetchSession sha256 d attempts) := by
  intro entry hentry bytes hbytes
  rcases @keptOrPinned_session sha256 entry hentry attempts d with hkept | ⟨_, hpinned⟩
  · exact h entry hentry bytes (hkept ▸ hbytes)
  · rw [hbytes] at hpinned
    exact Option.some.inj hpinned

/-- After any interrupted fetches the assets are pinned, those found at first are unchanged, and a
fetch that finds its asset or downloads the pinned one ends with its document. -/
theorem fetch_resumes {d : Disk} (hd : Pinned sha256 d) (attempts : List FetchAttempt)
    (w : FetchWorld) :
    Pinned sha256 (fetchSession sha256 d attempts) ∧
      (∀ entry ∈ ttsimReleases, ∀ bytes, d.lookup entry.2.asset = some bytes →
        (fetchSession sha256 d attempts).lookup entry.2.asset = some bytes) ∧
      ((∃ document, (fetchMain sha256 w (fetchSession sha256 d attempts)).2 = .printed document) ↔
        ∃ release, ttsimReleases.lookup w.architecture = some release ∧ w.system = "Linux" ∧
          w.mkdir = .ok () ∧
          (((fetchSession sha256 d attempts).lookup release.asset).isSome = true ∨
            ∃ bytes, w.download release.url = .complete bytes ∧ sha256 bytes = release.sha256) ∧
          ∃ text, w.descriptor = .ok text) := by
  have hsession := hd.session attempts
  refine ⟨hsession, fun entry hentry bytes hbytes => ?_, ?_⟩
  · rcases @keptOrPinned_session sha256 entry hentry attempts d with hkept | ⟨hnone, _⟩
    · rw [hkept, hbytes]
    · rw [hnone] at hbytes
      cases hbytes
  simp only [fetchMain_eq_printed_iff]
  constructor
  · rintro ⟨_, release, text, h, _⟩
    refine ⟨release, h.pinned, h.system, h.mkdir, ?_, text, h.descriptor⟩
    rcases h.asset with hasset | ⟨_, hasset⟩
    · obtain ⟨bytes, hbytes, _⟩ := Option.map_eq_some_iff.mp hasset
      exact Or.inl (Option.isSome_iff_exists.mpr ⟨bytes, hbytes⟩)
    · exact Or.inr hasset
  · rintro ⟨release, hpinned, hsystem, hmkdir, hasset, text, htext⟩
    refine ⟨_, release, text, ⟨hpinned, hsystem, hmkdir, ?_, htext⟩, rfl⟩
    cases hfound : (fetchSession sha256 d attempts).lookup release.asset with
    | some bytes =>
      exact Or.inl (congrArg some (hsession _ (mem_of_lookup_releases hpinned) bytes hfound))
    | none =>
      refine Or.inr ⟨rfl, hasset.resolve_left fun h => ?_⟩
      rw [hfound] at h
      cases h

/-- A fetch of those bytes and of that descriptor. -/
def labFetch (download : Download) : FetchWorld where
  architecture := "x86_64"
  system := "Linux"
  mkdir := .ok ()
  download _ := download
  descriptor := .ok [0x80, 0x3f]

/-- After a broken download and a corrupt one the next attempt completes. -/
theorem fetch_resumes_lab : ∃ document, (fetchMain labSha256 (labFetch (.complete simulatorBytes))
    (fetchSession labSha256 [] [⟨labFetch (.broken [0x7f] "timed out"), 2⟩,
      ⟨labFetch (.complete [0x00]), 2⟩])).2 = .printed document := by
  have hnew : Pinned labSha256 [] := by
    intro entry _ bytes h
    cases h
  exact (fetch_resumes hnew _ _).2.2.mpr
    ⟨_, rfl, rfl, rfl, Or.inr ⟨simulatorBytes, rfl, if_pos rfl⟩, _, rfl⟩

/-- The machine finds the simulator and its descriptor in the directory. -/
structure Machine.Finds (m : Machine) (release : Release) (d : Disk) : Prop where
  name : m.simulatorName = release.asset
  simulator : ∀ bytes, d.lookup release.asset = some bytes → m.simulator = ⟨true, .ok bytes⟩
  descriptor : ∀ text, d.lookup descriptorName = some text → m.descriptor = ⟨true, .ok text⟩

/-- What the preflight asks besides the simulator and its descriptor. -/
def PassesRest (args : Arguments) (w : World) (source : SourceView) : Prop :=
  (args.binary = true ∧ args.metalHome = true ∧ args.simulator = true) ∧
    (∃ cache ∈ w.machine.cache, cache.toList.head? = some '/') ∧
    (w.machine.binary.isFile = true ∧ w.machine.executable = true) ∧
    w.machine.metalHead = .ok metalCommit ∧ source.commit.getD "" ≠ "" ∧
    ∃ bytes, w.machine.binary.bytes = .ok bytes

/-- A requirement passes where it is met. -/
theorem requireText_eq_ok_iff {p : Prop} [Decidable p] {text : String} {u : Unit} :
    requireText p text = .ok u ↔ p := by
  unfold requireText
  split_ifs with h <;> simp [h]

/-- After a fetch the preflight depends on the rest. -/
theorem preflight_fetched_iff {args : Arguments} {w : World} {source : SourceView} {d : Disk}
    {entry : String × Release} (hentry : entry ∈ ttsimReleases) {text : List Byte}
    (h : Fetched w.runner.sha256 d entry.2 text) (hfinds : w.machine.Finds entry.2 d)
    (hupstream : w.machine.upstreamDescriptor.bytes = .ok text) :
    (∃ pre, preflight args w source = .ok pre) ↔ PassesRest args w source := by
  obtain ⟨bytes, hbytes, hsha⟩ := Option.map_eq_some_iff.mp h.asset
  have hsimulator := hfinds.simulator bytes hbytes
  have hdescriptor := hfinds.descriptor text h.descriptor
  have hdigest := simulatorDigests_releases entry hentry
  simp only [preflight, PassesRest, sha256File, hsimulator, hdescriptor, hupstream, hfinds.name,
    hdigest, hsha, requireText_eq_ok_iff, bind_eq_ok_iff, Except.map]
  constructor
  · rintro ⟨_, _, hargs, _, hcache, _, hbinary, _, -, _, -, _, -, _, hhead, _, rfl, _, -,
      _, -, _, -,
      _, -, _, hcommit, _, hhash, -⟩
    refine ⟨hargs, hcache, hbinary, hhead, hcommit, ?_⟩
    cases hread : w.machine.binary.bytes with
    | error e => rw [hread] at hhash; cases hhash
    | ok binary => exact ⟨binary, rfl⟩
  · rintro ⟨hargs, hcache, hbinary, hhead, hcommit, binary, hread⟩
    exact ⟨_, (), hargs, (), hcache, (), hbinary, (), trivial, _, rfl, (), rfl, _, hhead, (), rfl,
      (), trivial, _, rfl, _, rfl, (), rfl, (), hcommit, _, by rw [hread], rfl⟩

/-- A preflight on what a completed fetch leaves, whatever it found. -/
theorem preflight_afterFetch {args : Arguments} {w : World} {source : SourceView} {d : Disk}
    {f : FetchWorld} {document : Json}
    (hprinted : (fetchMain w.runner.sha256 f d).2 = .printed document)
    (hfinds : ∀ release, ttsimReleases.lookup f.architecture = some release →
      w.machine.Finds release (runSteps d (fetchMain w.runner.sha256 f d).1))
    (hupstream : w.machine.upstreamDescriptor.bytes = f.descriptor) :
    (∃ pre, preflight args w source = .ok pre) ↔ PassesRest args w source := by
  obtain ⟨release, text, hfetchable, _⟩ := fetchMain_eq_printed_iff.mp hprinted
  exact preflight_fetched_iff (mem_of_lookup_releases hfetchable.pinned) hfetchable.fetched
    (hfinds release hfetchable.pinned) (hupstream.trans hfetchable.descriptor)

/-- The preflight accepts what the fetch has left. -/
theorem preflight_afterFetch_lab :
    ∃ pre, preflight labArguments labWorld labSource = .ok pre := by
  have hsha : labSha256 simulatorBytes =
      "2686ebc212ea9753c0aecde74e640aff43efbe54db0322676627c3a0c1b14d81" := if_pos rfl
  have hprinted : (fetchMain labWorld.runner.sha256 (labFetch (.complete simulatorBytes)) []).2 =
      .printed (fetchDocument (labFetch (.complete simulatorBytes))
        ⟨"libttsim_wh.so", "2686ebc212ea9753c0aecde74e640aff43efbe54db0322676627c3a0c1b14d81"⟩) :=
    fetchMain_eq_printed_iff.mpr ⟨_, _, ⟨rfl, rfl, rfl,
      Or.inr ⟨rfl, simulatorBytes, rfl, hsha⟩, rfl⟩, rfl⟩
  refine (preflight_afterFetch hprinted (fun release hrelease => ?_) rfl).mpr ?_
  · obtain rfl := Option.some.inj hrelease
    constructor
    · rfl
    · intro bytes h
      obtain rfl := Option.some.inj h
      rfl
    · intro text h
      obtain rfl := Option.some.inj h
      rfl
  · exact ⟨⟨rfl, rfl, rfl⟩, ⟨_, rfl, rfl⟩, ⟨rfl, rfl⟩, rfl, by decide, _, rfl⟩

end RowReduce
