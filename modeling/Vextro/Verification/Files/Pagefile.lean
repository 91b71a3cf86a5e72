import Vextro.Verification.Files.Paths
import Vextro.Verification.Ntfs.Search

/-! The pagefile is kept from change under one spelling of its path only. -/

namespace Vextro.FileLayer

open Accounts Profile Segments Ntfs List

/-! ## The pagefile -/

/-- `pagefile.sys` -/
def pagefileName : List UInt8 := swapPath.tail

def swapBytes : ℕ := 256 * 1024 * 1024

/-- What `ntfs_single_extent` asks of a record. -/
def singleExtent (v : Mount) (r : Record) (need : ℕ) : Bool :=
  match r.data with
  | some (.nonResident [run] _ realSize) =>
    need ≤ realSize && !run.sparse && need ≤ run.length * v.bytesPerCluster
  | _ => false

/-- The pager is up and this is the record of its file, which has one name on the volume. -/
structure Swapping (l : Layer) (record : ℕ) : Prop where
  ready : l.swapReady = true
  found : ∃ f, ntfsLookup l.mount l.img swapPath = some f ∧ f.record = record ∧ f.isDir = false
  extent : ∃ r, l.img.mft record = some r ∧ singleExtent l.mount r swapBytes = true
  tree : Tree l.mount l.img
  named : ∀ {dir : ℕ} {e : Entry}, Reachable l.mount l.img dir → e ∈ listed l.mount l.img dir →
    recordOfRef e.ref = record → dir = ntfsMftRoot ∧ e.shown = foldName pagefileName

/-- The path leads to this record. -/
def Resolves (l : Layer) (path : List UInt8) (record : ℕ) : Prop :=
  ∃ f, ntfsLookup l.mount l.img (fsNative path) = some f ∧ f.record = record

/-- What is on the volume while a call runs and after it. -/
def ChangeCall.seen (l : Layer) (call : ChangeCall) : List Image := let l' :=
  (call.run { l with past := [] }).2
  l'.img :: l'.past

def ChangeCall.changes (l : Layer) (call : ChangeCall) : Prop := ∃ img ∈ call.seen l, img ≠ l.img

/-- The ways to spell the path: dots, then the name in any case. -/
def Spells (abs : List UInt8) : Prop :=
  ∃ dots c, segments slash abs = dots ++ [c] ∧ (∀ d ∈ dots, d = [dot]) ∧
  foldName c = foldName pagefileName

/-- A path is not another spelling of the pagefile's, or ends with a slash. -/
def Guarded (path : List UInt8) : Prop :=
  fsNative path = swapPath ∨ (fsNative path).getLast? = some slash ∨ ¬Spells (fsNative path)

theorem Swapping.ne_root {l : Layer} {record : ℕ} (h : Swapping l record) :
    record ≠ ntfsMftRoot := by
  obtain ⟨f, hf, hrec, -⟩ := h.found
  rw [ntfsLookup] at hf
  split at hf
  · cases hf
  have hlast : lookupFrom l.mount l.img ([] ++ [pagefileName]) lookupStart = some f := hf
  obtain ⟨d, e, hd, -, he, hname, hfrec, -⟩ := lookupFrom_concat hlast
  cases hd
  intro hroot
  have hshown := (h.tree.root .root he (hfrec.symm.trans (hrec.trans hroot))).2
  exact absurd (hname.trans hshown) (by decide)

/-- What leads to the pagefile spells its path. -/
theorem Swapping.spells {l : Layer} {record : ℕ} (h : Swapping l record) {path : List UInt8}
    (hres : Resolves l path record) : Spells (fsNative path) := by
  obtain ⟨f, hf, hrec⟩ := hres
  rw [ntfsLookup] at hf
  split at hf
  · cases hf
  rw [pathComponents_absolute (fsNative_absolute path).short] at hf
  rcases eq_nil_or_concat (segments slash (fsNative path)) with hnil | ⟨dots, c, hcomps⟩
  · rw [hnil] at hf
    cases hf
    exact absurd hrec.symm h.ne_root
  rw [concat_eq_append] at hcomps
  rw [hcomps] at hf
  obtain ⟨d, e, hd, hddir, he, hname, hfrec, -⟩ := lookupFrom_concat hf
  obtain ⟨hroot, hshown⟩ := h.named (lookupFrom_reachable .root hd hddir) he (hfrec.symm.trans hrec)
  exact ⟨dots, c, hcomps, h.tree.dots hd hroot, hname.trans hshown⟩

/-- The guard stops a call on the path as it stands, and the driver one that ends with a slash. -/
theorem changeable_guarded {l : Layer} (hready : l.swapReady) {path : List UInt8}
    (h : fsNative path = swapPath ∨ (fsNative path).getLast? = some slash) :
    ∃ err, changeable l (fsNative path) = .error err := by
  rw [changeable]
  split
  · exact ⟨_, rfl⟩
  split
  · exact ⟨_, rfl⟩
  rename_i hswap
  rcases h with h | h
  · exact absurd (by simp [swapOwnsPath, hready, h]) hswap
  · rw [ntfsSplit_slash h]
    exact ⟨_, rfl⟩

theorem ChangeCall.run_of_error {l : Layer} {call : ChangeCall} {err : String}
    (h : changeable l (fsNative call.path) = .error err) : call.run l = (.error (some err), l) := by
  cases call with
  | write now path data =>
    rw [ChangeCall.path] at h
    rw [run, fsWriteFile, h]
  | delete path =>
    rw [ChangeCall.path] at h
    rw [run, fsDelete, h]

/-! ## A volume with a pagefile -/

def swapMount : Mount := ⟨true, 4096, 1024, some ⟨3, 98304⟩, true, [], blankRecord⟩

def pagefileEntry : Entry := ixMakeEntry 40 pagefileName false swapBytes swapBytes 0

def swapRootEntry : Entry := ixMakeEntry 5 [dot] true 0 0 0

/-- `$MFT` takes 64 records, and the pagefile 65536 clusters in one run. -/
def swapVolume : Image :=
  { smallVolume [(0, fileRecord 400 (.nonResident [⟨4, 16, false⟩] 65536 65536)),
      (5, smallDirectory [swapRootEntry, pagefileEntry]),
      (40, fileRecord 400 (.nonResident [⟨1024, 65536, false⟩] swapBytes swapBytes))] with
    used := fun c => c < 1024 + 65536 }

/-- Nobody is signed in. -/
def swapLayer : Layer := ⟨swapMount, swapVolume, [], ⟨[], -1⟩, true⟩

theorem swapVolume_listed {record : ℕ} {e : Entry} (h : e ∈ listed swapMount swapVolume record) :
    record = 5 ∧ (e = swapRootEntry ∨ e = pagefileEntry) := by
  obtain ⟨r, hr, he⟩ := listed_smallVolume rfl h
  simp only [mem_cons, not_mem_nil, or_false] at hr
  rcases hr with ⟨rfl, rfl⟩ | ⟨rfl, rfl⟩ | ⟨rfl, rfl⟩
  · cases he
  · have hroot : e ∈ [swapRootEntry, pagefileEntry] := he
    simpa using hroot
  · cases he

theorem swapVolume_tree : Tree swapMount swapVolume := by
  constructor
  · intro record e _ he href
    obtain ⟨rfl, rfl | rfl⟩ := swapVolume_listed he
    · exact ⟨rfl, rfl⟩
    · exact absurd href (by decide)
  intro record record' e e' _ _ he he' hdir href hne
  obtain ⟨rfl, rfl | rfl⟩ := swapVolume_listed he
  · exact absurd rfl hne
  · cases hdir

theorem swapLayer_swapping : Swapping swapLayer 40 where
  ready := rfl
  found := ⟨⟨40, 5, false, swapBytes⟩, by decide +kernel, rfl, rfl⟩
  extent := ⟨_, rfl, by decide +kernel⟩
  tree := swapVolume_tree
  named := by
    intro record e _ he href
    obtain ⟨rfl, rfl | rfl⟩ := swapVolume_listed he
    · exact absurd href (by decide)
    · exact ⟨rfl, rfl⟩

theorem lookupFrom_dots {dots : List (List UInt8)} (h : ∀ d ∈ dots, d = [dot]) :
    lookupFrom swapMount swapVolume dots lookupStart = some lookupStart := by
  induction dots with
  | nil => rfl
  | cons d dots ih =>
    obtain ⟨rfl, hrest⟩ := forall_mem_cons.mp h
    have hfind : findName swapMount swapVolume 5 [dot] = some swapRootEntry := by decide +kernel
    exact ih hrest

theorem lookup_spelled {abs : List UInt8} (hshort : abs.length < profilePathMax) (h : Spells abs) :
    ntfsLookup swapMount swapVolume abs = some ⟨40, 5, false, swapBytes⟩ := by
  obtain ⟨dots, c, hseg, hdots, hc⟩ := h
  have hfind : findName swapMount swapVolume 5 c = some pagefileEntry := by
    rw [findName_fold hc]
    decide +kernel
  have hlast : lookupFrom swapMount swapVolume [c] lookupStart = some
      ⟨40, 5, false, swapBytes⟩ := by
    rw [lookupFrom, show lookupStart.record = 5 from rfl, hfind]
    decide +kernel
  rw [ntfsLookup, pathComponents_absolute hshort, hseg]
  exact (lookupFrom_append dots [c] lookupStart).trans (by rw [lookupFrom_dots hdots]; exact hlast)

theorem split_spelled {abs : List UInt8} (habs : Absolute abs) (hend : abs.getLast? ≠ some slash)
    (h : Spells abs) :
    ∃ leaf, ntfsSplit swapMount swapVolume abs = some (5, leaf) ∧
    foldName leaf = foldName pagefileName := by
  obtain ⟨dots, c, hseg, hdots, hc⟩ := h
  have hsplit := (segments_split (mem_of_mem_head? habs.head) hend).1
  rw [hseg] at hsplit
  obtain ⟨hdir, hlast⟩ := append_inj' hsplit rfl
  obtain rfl : c = leafOf abs := (List.cons.inj hlast).1
  refine ⟨leafOf abs, (ntfsSplit_eq_some habs).mpr ⟨rfl, hend, rfl, lookupStart, ?_, rfl, rfl⟩, hc⟩
  rw [← hdir]
  exact lookupFrom_dots hdots

theorem delete_pagefile {leaf : List UInt8} (h : foldName leaf = foldName pagefileName) :
    (swapLayer.call (.delete 5 leaf)).2.img.mft 40 ≠ swapVolume.mft 40 := by
  have hsame : swapLayer.call (.delete 5 leaf) = swapLayer.call (.delete 5 pagefileName) := by
    rw [Layer.call, Layer.call, FsCall.run, FsCall.run, FsCall.op, FsCall.op, ntfsDeleteFile_fold h]
  rw [hsame]
  decide +kernel

theorem Layer.call_past (l : Layer) (call : FsCall) : l.img ∈ (l.call call).2.past := by
  rw [Layer.call]
  split <;> simp [Layer.left]

/-- Under any other spelling both calls change the volume. -/
theorem changes_spelled {call : ChangeCall} (h : ¬Guarded call.path) :
    call.changes swapLayer ∧ Resolves swapLayer call.path 40 := by
  simp only [Guarded, not_or, not_not] at h
  obtain ⟨hother, hend, hspells⟩ := h
  have habs := fsNative_absolute call.path
  have hlookup := lookup_spelled habs.short hspells
  obtain ⟨leaf, hsplit, hleaf⟩ := split_spelled habs hend hspells
  have hok : changeable swapLayer (fsNative call.path) = .ok (5, leaf) := by
    have hmay : profMay swapLayer.users (fsNative call.path) true = none := rfl
    have hswap : swapOwnsPath swapLayer.swapReady (fsNative call.path) = false := by
      simp [swapOwnsPath, hother]
    rw [changeable, hmay]
    simp only [hswap, Bool.false_eq_true, if_false]
    rw [show swapLayer.mount = swapMount from rfl, show swapLayer.img = swapVolume from rfl, hsplit]
  refine ⟨⟨(swapLayer.call (.delete 5 leaf)).2.img, ?_, fun himg => ?_⟩, _, hlookup, rfl⟩
  · cases call with
    | write now path data =>
      rw [ChangeCall.path] at hok
      have hsome : (ntfsLookup swapLayer.mount swapLayer.img (fsNative path)).isSome := by
        exact Option.isSome_of_eq_some hlookup
      have hrun : (ChangeCall.write now path data).run { swapLayer with past := [] } =
          (swapLayer.call (.delete 5 leaf)).2.call (.create now 5 leaf data) := by
        rw [ChangeCall.run, fsWriteFile,
          show ({ swapLayer with past := [] } : Layer) = swapLayer from rfl, hok]
        simp only [hsome, if_true]
      rw [ChangeCall.seen, hrun]
      exact mem_cons_of_mem _ (Layer.call_past _ _)
    | delete path =>
      rw [ChangeCall.path] at hok
      have hrun : (ChangeCall.delete path).run { swapLayer with past := [] } =
          swapLayer.call (.delete 5 leaf) := by
        rw [ChangeCall.run, fsDelete,
          show ({ swapLayer with past := [] } : Layer) = swapLayer from rfl, hok]
      rw [ChangeCall.seen, hrun]
      exact mem_cons_self
  · exact delete_pagefile hleaf (by rw [himg]; rfl)

/-- A call is kept from changing the pagefile on every volume exactly when its path is the one
the guard compares with, ends with a slash, or does not spell the pagefile's. -/
theorem pagefile_kept_iff (call : ChangeCall) :
    (∀ l record, Swapping l record → call.changes l → ¬Resolves l call.path record) ↔
    Guarded call.path := by
  constructor
  · intro hkept
    by_contra hguard
    obtain ⟨hchanges, hres⟩ := changes_spelled hguard
    exact hkept swapLayer 40 swapLayer_swapping hchanges hres
  intro hguard l record hswap hchanges hres
  have hstopped : fsNative call.path = swapPath ∨ (fsNative call.path).getLast? = some slash := by
    rcases hguard with h | h | h
    · exact .inl h
    · exact .inr h
    · exact absurd (hswap.spells hres) h
  have hready : ({ l with past := [] } : Layer).swapReady = true := hswap.ready
  obtain ⟨err, herr⟩ := changeable_guarded hready hstopped
  obtain ⟨img, himg, hne⟩ := hchanges
  rw [ChangeCall.seen, ChangeCall.run_of_error herr] at himg
  exact hne (mem_singleton.mp himg)

/-- `/PAGEFILE.SYS` is deleted while the pager uses its clusters. -/
theorem upper_case_pagefile_deleted : Swapping swapLayer 40 ∧
      (ChangeCall.delete (slash :: foldName pagefileName)).changes swapLayer ∧
      Resolves swapLayer (slash :: foldName pagefileName) 40 ∧
      (fsDelete swapLayer (slash :: foldName pagefileName)).1.isOk = true ∧
      swapVolume.used 1024 = true ∧
      (fsDelete swapLayer (slash :: foldName pagefileName)).2.img.used 1024 = false := by
  have hguard : ¬Guarded (ChangeCall.delete (slash :: foldName pagefileName)).path := by
    rintro (h | h | h)
    · exact absurd h (by decide)
    · exact absurd h (by decide)
    · exact h ⟨[], foldName pagefileName, by decide +kernel, by simp, by decide⟩
  obtain ⟨hchanges, hres⟩ := changes_spelled hguard
  exact ⟨swapLayer_swapping, hchanges, hres, by decide +kernel, by decide, by decide +kernel⟩

end Vextro.FileLayer
