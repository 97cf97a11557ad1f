import RowReduce.Correctness.StrictReader
import RowReduce.Runner.SourceIdentity

/-!
# What the tree hash binds

The manifest is read back from the text that is hashed, so that equal tree hashes
come from the same files or from a collision among the texts hashed.
-/

namespace RowReduce

open Hexadecimal

/-- Different paths have different names. -/
theorem relativeName_injective {a b : List String} (ha : a ≠ [] ∧ ∀ part ∈ a, '/' ∉ part.toList)
    (hb : b ≠ [] ∧ ∀ part ∈ b, '/' ∉ part.toList) (h : relativeName a = relativeName b) :
      a = b := by
  have hsplit : ∀ {l : List String}, (l ≠ [] ∧ ∀ part ∈ l, '/' ∉ part.toList) →
      (relativeName l).toList.splitOn '/' = l.map String.toList := by
    intro l hl
    rw [relativeName, String.toList_ofList]
    refine List.splitOn_intercalate '/' (fun part hpart => ?_) (by simpa using hl.1)
    obtain ⟨s, hs, rfl⟩ := List.mem_map.mp hpart
    exact hl.2 s hs
  have hmap : a.map String.toList = b.map String.toList := by rw [← hsplit ha, h, hsplit hb]
  exact List.map_injective_iff.mpr (fun s t hst => String.ext hst) hmap

namespace SourceTree

variable {sha256 : List Byte → String} {s t : SourceTree}

private theorem mem_files {p : List String × List Byte} (h : p ∈ t.selected) : p ∈ t.files :=
  (List.mem_filter.mp h).1

/-- An entry of the manifest is a selected file with its hash. -/
theorem mem_manifest {entry : String × String} : entry ∈ t.manifest sha256 ↔
    ∃ p ∈ t.selected, relativeName p.1 = entry.1 ∧ sha256 p.2 = entry.2 := by
  simp only [manifest, List.mem_map, List.mem_insertionSort, Prod.ext_iff]

/-- Every file is listed once. -/
theorem manifest_nodup (sha256 : List Byte → String) (t : SourceTree) :
    ((t.manifest sha256).map Prod.fst).Nodup := by
  have hperm := (List.perm_insertionSort (fun p q : List String × List Byte => p.1 ≤ q.1)
    t.selected).map Prod.fst
  have hparts : ((t.selected.insertionSort fun p q => p.1 ≤ q.1).map Prod.fst).Nodup :=
    hperm.nodup_iff.mpr (t.distinct.sublist (List.filter_sublist.map Prod.fst))
  rw [manifest, List.map_map]
  rw [List.nodup_map_iff_inj_on hparts.of_map]
  intro p hp q hq h
  rw [List.mem_insertionSort] at hp hq
  have hfst :=
    relativeName_injective (t.separated p (mem_files hp)) (t.separated q (mem_files hq)) h
  exact List.inj_on_of_nodup_map t.distinct (mem_files hp) (mem_files hq) hfst

/-- The object whose text is hashed. -/
def sortedManifest (sha256 : List Byte → String) (t : SourceTree) : List (String × Json) :=
  ((t.manifest sha256).insertionSort fun p q => p.1 ≤ q.1).map fun p => (p.1, .str p.2)

private theorem sortedManifest_dumpable (sha256 : List Byte → String) (t : SourceTree)
    (repr : ℚ → String)
    (maxDigits : Option ℕ) : (Json.dict (t.sortedManifest sha256)).Dumpable repr maxDigits := by
  rw [Json.Dumpable, fieldsDumpable_iff]
  constructor
  · have hperm := (List.perm_insertionSort (fun p q : String × String => p.1 ≤ q.1)
      (t.manifest sha256)).map Prod.fst
    rw [sortedManifest, List.map_map]
    exact hperm.nodup_iff.mpr (t.manifest_nodup sha256)
  · intro p hp
    obtain ⟨entry, _, rfl⟩ := List.mem_map.mp hp
    rw [Json.Dumpable.eq_def]
    trivial

/-- The text determines the manifest. -/
theorem mem_manifest_of_text (h : s.manifestText sha256 = t.manifestText sha256)
    {entry : String × String} (hentry : entry ∈ s.manifest sha256) : entry ∈ t.manifest sha256 := by
  have hread : ∀ u : SourceTree, jsonLoads none (String.ofList (u.manifestText sha256)) =
      some (.dict (u.sortedManifest sha256)) := by
    intro u
    have hdump := @jsonLoads_dumpValue _ _ _ {}
      (u.sortedManifest_dumpable sha256 (fun _ => "") none) [] (by simp)
    rwa [List.append_nil] at hdump
  have hsorted : s.sortedManifest sha256 = t.sortedManifest sha256 := by
    have hsame :=
      (hread s).symm.trans ((congrArg (fun text => jsonLoads none (String.ofList text)) h).trans
      (hread t))
    exact (Json.dict.inj (Option.some.inj hsame))
  have hmem : (entry.1, Json.str entry.2) ∈ s.sortedManifest sha256 :=
    List.mem_map.mpr ⟨entry, (List.mem_insertionSort _).mpr hentry, rfl⟩
  rw [hsorted] at hmem
  obtain ⟨other, hother, heq⟩ := List.mem_map.mp hmem
  obtain ⟨hname, hhash⟩ := Prod.mk.inj heq
  have : other = entry := Prod.ext hname (Json.str.inj hhash)
  exact this ▸ (List.mem_insertionSort _).mp hother

/-- The texts a tree hash is computed from. -/
def hashed (sha256 : List Byte → String) (t : SourceTree) : List (List Byte) :=
  asciiBytes (t.manifestText sha256) :: t.selected.map Prod.snd

/-- A collision between the texts of two tree hashes. -/
def Collide (sha256 : List Byte → String) (s t : SourceTree) : Prop :=
  ∃ a ∈ s.hashed sha256, ∃ b ∈ t.hashed sha256, a ≠ b ∧ sha256 a = sha256 b

/-- Collisions are symmetric. -/
theorem Collide.symm (h : Collide sha256 s t) : Collide sha256 t s := by
  obtain ⟨a, ha, b, hb, hne, hhash⟩ := h
  exact ⟨b, hb, a, ha, hne.symm, hhash.symm⟩

/-- Without a collision equal hashes select the same files. -/
theorem selected_subset (hcollide : ¬Collide sha256 s t)
    (h : s.treeSha256 sha256 = t.treeSha256 sha256) {p : List String × List Byte}
    (hp : p ∈ s.selected) : p ∈ t.selected := by
  have hsame : ∀ {a b : List Byte}, a ∈ s.hashed sha256 → b ∈ t.hashed sha256 →
      sha256 a = sha256 b → a = b := by
    intro a b ha hb hhash
    by_contra hne
    exact hcollide ⟨a, ha, b, hb, hne, hhash⟩
  have hascii : ∀ u : SourceTree, IsAscii (u.manifestText sha256) := fun u =>
    isAscii_dumpValue (fun _ => by simp [IsAscii]) _ _ _
  have htext := asciiBytes_injective (hascii s) (hascii t)
    (hsame List.mem_cons_self List.mem_cons_self h)
  have hentry : (relativeName p.1, sha256 p.2) ∈ s.manifest sha256 :=
    mem_manifest.mpr ⟨p, hp, rfl, rfl⟩
  obtain ⟨q, hq, hname, hhash⟩ := mem_manifest.mp (mem_manifest_of_text htext hentry)
  have hparts := relativeName_injective (t.separated q (mem_files hq))
    (s.separated p (mem_files hp)) hname
  have hbytes := hsame (List.mem_cons_of_mem _ (List.mem_map_of_mem hp))
    (List.mem_cons_of_mem _ (List.mem_map_of_mem hq)) hhash.symm
  have : q = p := Prod.ext hparts hbytes.symm
  exact this ▸ hq

/-- Equal tree hashes come from the same selected files, or from a collision. -/
theorem selected_iff_of_treeSha256_eq (h : s.treeSha256 sha256 = t.treeSha256 sha256) :
    (∀ p, p ∈ s.selected ↔ p ∈ t.selected) ∨ Collide sha256 s t := by
  by_cases hcollide : Collide sha256 s t
  · exact Or.inr hcollide
  · exact Or.inl fun p => ⟨fun hp => selected_subset hcollide h hp,
      fun hp => selected_subset (fun hc => hcollide hc.symm) h.symm hp⟩

end SourceTree

end RowReduce
