import Mathlib.Data.List.Induction
import Vextro.Model.FileCalls

/-! The directories of a volume form a tree, and a path that reaches one of them goes through
the directories above it. -/

namespace Vextro.Ntfs

open List

variable {record : ℕ} {e : Entry} {comps : List (List UInt8)} {g : Found}
variable {v : Mount} {img : Image}

/-- The entries a walk of a directory shows. -/
def listed (v : Mount) (img : Image) (record : ℕ) : List Entry :=
  (img.mft record).elim [] fun r => ntfsIndexWalk v r img

/-- A name as a lookup compares it. -/
def foldName (name : List UInt8) : List UInt8 := name.map upcaseByte

def Entry.shown (e : Entry) : List UInt8 := foldName (ntfsNameToAscii e.name)

/-- The directories a lookup can come to. -/
inductive Reachable (v : Mount) (img : Image) : ℕ → Prop
  | root : Reachable v img ntfsMftRoot
  | entry {record : ℕ} {e : Entry} (h : Reachable v img record) (he : e ∈ listed v img record)
      (hdir : e.isDir = true) : Reachable v img (recordOfRef e.ref)

/-- A directory is entered under one name; the root is its own `.`. -/
structure Tree (v : Mount) (img : Image) : Prop where
  root : ∀ {record : ℕ} {e : Entry}, Reachable v img record → e ∈ listed v img record →
    recordOfRef e.ref = ntfsMftRoot → record = ntfsMftRoot ∧ e.shown = [0x2E]
  single : ∀ {record record' : ℕ} {e e' : Entry}, Reachable v img record → Reachable v img record' →
    e ∈ listed v img record → e' ∈ listed v img record' → e.isDir = true →
    recordOfRef e.ref = recordOfRef e'.ref → recordOfRef e.ref ≠ ntfsMftRoot →
    record = record' ∧ e.shown = e'.shown

theorem findName_some {want : List UInt8} (h : findName v img record want = some e) :
    e ∈ listed v img record ∧ foldName want = e.shown := by
  obtain ⟨r, hr, hfind⟩ := Option.bind_eq_some_iff.mp h
  have hmatch : nameMatches want e := find?_some hfind
  refine ⟨?_, of_decide_eq_true hmatch⟩
  rw [listed, hr]
  exact mem_of_find?_eq_some hfind

/-- The entry of a path's start. -/
def lookupStart : Found := ⟨ntfsMftRoot, ntfsMftRoot, true, 0⟩

theorem lookupFrom_append (comps rest : List (List UInt8)) (f : Found) :
    lookupFrom v img (comps ++ rest) f = (lookupFrom v img comps f).bind
      (lookupFrom v img rest) := by
  induction comps generalizing f with
  | nil => rfl
  | cons comp comps ih =>
    rw [cons_append, lookupFrom, lookupFrom]
    split
    · rfl
    cases findName v img f.record comp with
    | none => rfl
    | some e => exact ih _

theorem lookupFrom_concat {comp : List UInt8} {f : Found}
    (h : lookupFrom v img (comps ++ [comp]) f = some g) :
    ∃ d e, lookupFrom v img comps f = some d ∧ d.isDir ∧ e ∈ listed v img d.record ∧
      foldName comp = e.shown ∧ g.record = recordOfRef e.ref ∧ g.isDir = e.isDir := by
  rw [lookupFrom_append] at h
  obtain ⟨d, hd, hlast⟩ := Option.bind_eq_some_iff.mp h
  rw [lookupFrom] at hlast
  split at hlast
  · cases hlast
  rename_i hdir
  cases hfind : findName v img d.record comp with
  | none =>
    simp [hfind] at hlast
  | some e =>
    rw [hfind] at hlast
    cases hlast
    obtain ⟨hmem, hname⟩ := findName_some hfind
    exact ⟨d, e, hd, by simpa using hdir, hmem, hname, rfl, rfl⟩

theorem lookupFrom_reachable {f : Found} (hf : Reachable v img f.record)
    (h : lookupFrom v img comps f = some g) (hdir : g.isDir) : Reachable v img g.record := by
  induction comps using reverseRecOn generalizing g with
  | nil =>
    cases h
    exact hf
  | append_singleton comps comp ih =>
    obtain ⟨d, e, hd, hddir, hmem, -, hrec, hgdir⟩ := lookupFrom_concat h
    rw [hrec]
    exact .entry (ih hd hddir) hmem (hgdir ▸ hdir)

theorem forall_byte {p : UInt8 → Prop} (h : ∀ n : Fin 256, p (UInt8.ofFin n)) (c : UInt8) :
    p c := h c.toFin

theorem upcaseByte_dot :
    ∀ c : UInt8, upcaseByte c = 0x2E → c = 0x2E := forall_byte (by decide +kernel)

theorem foldName_dot {name : List UInt8} (h : foldName name = [0x2E]) : name = [0x2E] := by
  obtain ⟨c, rfl, hc⟩ := map_eq_singleton_iff.mp h
  rw [upcaseByte_dot c hc]

/-- A path that ends at the root stayed there. -/
theorem Tree.dots (htree : Tree v img) (h : lookupFrom v img comps lookupStart = some g)
    (hrec : g.record = ntfsMftRoot) : ∀ comp ∈ comps, comp = [0x2E] := by
  induction comps using reverseRecOn generalizing g with
  | nil => simp
  | append_singleton comps comp ih =>
    obtain ⟨d, e, hd, hddir, hmem, hname, hgrec, -⟩ := lookupFrom_concat h
    obtain ⟨hroot, hshown⟩ := htree.root (lookupFrom_reachable .root hd hddir) hmem (hgrec ▸ hrec)
    intro c hc
    rcases mem_append.mp hc with hc | hc
    · exact ih hd hroot c hc
    · rw [mem_singleton.mp hc]
      exact foldName_dot (hname.trans hshown)

/-- A path that reaches a directory other than the root came from the one directory that has
it. -/
theorem Tree.above (htree : Tree v img) (hrecord : Reachable v img record)
    (he : e ∈ listed v img record) (hdir : e.isDir) (hne : recordOfRef e.ref ≠ ntfsMftRoot)
    (h : lookupFrom v img comps lookupStart = some g) (hrec : g.record = recordOfRef e.ref) :
    ∃ front comp d, comps = front ++ [comp] ∧ lookupFrom v img front lookupStart = some d ∧
      d.record = record ∧ foldName comp = e.shown := by
  induction comps using reverseRecOn with
  | nil =>
    cases h
    exact absurd hrec.symm hne
  | append_singleton comps comp _ =>
    obtain ⟨d, e', hd, hddir, hmem, hname, hgrec, -⟩ := lookupFrom_concat h
    obtain ⟨hsame, hshown⟩ := htree.single hrecord
      (lookupFrom_reachable .root hd hddir) he hmem hdir (hrec.symm.trans hgrec) hne
    exact ⟨comps, comp, d, rfl, hd, hsame.symm, hname.trans hshown.symm⟩

/-! ## Small volumes -/

/-- A directory whose entries all stand in its record. -/
def smallDirectory (entries : List Entry) : Record where
  inUse := true
  isDir := true
  sequence := 1
  otherBytes := 400
  data := none
  indexRoot := some ⟨4096, ⟨false, entries.map fun e => (e, 0), 0⟩⟩
  indexAlloc := none
  bitmap := none

/-- A volume with these records and nothing else. -/
def smallVolume (records : List (ℕ × Record)) : Image where
  mft record := records.lookup record
  cluster _ := .bytes []
  used _ := false

def smallMount : Mount := ⟨true, 4096, 1024, some ⟨1000, 1000⟩, true, [], blankRecord⟩

theorem listed_smallVolume {records : List (ℕ × Record)}
    (hmft : img.mft = (smallVolume records).mft) (h : e ∈ listed v img record) :
    ∃ r, (record, r) ∈ records ∧ e ∈ ntfsIndexWalk v r img := by
  rw [listed, hmft] at h
  cases hr : (smallVolume records).mft record with
  | none => simp [hr] at h
  | some r =>
    rw [hr] at h
    obtain ⟨pre, post, hsplit, -⟩ := lookup_eq_some_iff.mp hr
    exact ⟨r, by simp [hsplit], h⟩

end Vextro.Ntfs
