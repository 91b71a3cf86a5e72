import Mathlib.Data.List.Lex
import Vextro.Verification.Ntfs.Tree

/-! The collation of a directory is a linear order on upcased names, and two searches of a directory
go by it: the walk a lookup makes, and the descent a removal makes. -/

namespace Vextro.Ntfs

variable {a : List UInt16} {b : List UInt8}

/-! ## Keys -/

/-- A name as the collation sees it. -/
def nameKey (name : List UInt16) : List ℕ := name.map fun c => (upcase c).toNat

def Entry.key (e : Entry) : List ℕ := nameKey e.name

/-- The key of a C string. -/
def stringKey (name : List UInt8) : List ℕ := nameKey (name.map (·.toUInt16))

theorem ntfsNameCmp_spec : (ntfsNameCmp a b = .eq ↔ nameKey a = stringKey b) ∧
    (ntfsNameCmp a b = .lt ↔ nameKey a < stringKey b) := by
  induction a generalizing b with
  | nil => cases b <;> simp [ntfsNameCmp, nameKey, stringKey]
  | cons c a ih =>
    cases b with
    | nil => simp [ntfsNameCmp, nameKey, stringKey]
    | cons d b =>
      have heq : nameKey (c :: a) = stringKey (d :: b) ↔
          upcase c = upcase d.toUInt16 ∧ nameKey a = stringKey b := by
        simp [nameKey, stringKey, UInt16.toNat_inj]
      have hlt : nameKey (c :: a) < stringKey (d :: b) ↔
          upcase c < upcase d.toUInt16 ∨
            upcase c = upcase d.toUInt16 ∧ nameKey a < stringKey b := by
        simp [nameKey, stringKey, List.cons_lt_cons_iff, UInt16.toNat_inj, UInt16.lt_iff_toNat_lt]
      rw [heq, hlt]
      unfold ntfsNameCmp
      split
      · rename_i hsame
        simp [hsame, ih]
      · split <;> simp_all

theorem ntfsNameCmp_eq : ntfsNameCmp a b = .eq ↔ nameKey a = stringKey b := ntfsNameCmp_spec.1

theorem ntfsNameCmp_lt : ntfsNameCmp a b = .lt ↔ nameKey a < stringKey b := ntfsNameCmp_spec.2

theorem ntfsNameCmp_gt : ntfsNameCmp a b = .gt ↔ stringKey b < nameKey a := by
  have heq := ntfsNameCmp_eq (a := a) (b := b)
  have hlt := ntfsNameCmp_lt (a := a) (b := b)
  cases h : ntfsNameCmp a b with
  | eq => simp [(heq.mp h)]
  | lt => simpa using (hlt.mp h).le
  | gt =>
    rw [h] at heq hlt
    simp only [reduceCtorEq, false_iff] at heq hlt
    simp only [true_iff]
    exact lt_of_le_of_ne (not_lt.mp hlt) (Ne.symm heq)

/-! ## Searching a node -/

open List
open BlockTree (Ascending)

variable {name want : List UInt8} {n : IxNode} {sub : ℕ → List Entry} {e : Entry}

/-! ## The descent -/

theorem upcase_toUInt16 :
    ∀ c : UInt8, upcase c.toUInt16 = (upcaseByte c).toUInt16 := forall_byte (by decide +kernel)

theorem stringKey_eq (name : List UInt8) : stringKey name = (foldName name).map UInt8.toNat := by
  simp [stringKey, nameKey, foldName, upcase_toUInt16]

theorem stringKey_inj {a b : List UInt8} : stringKey a = stringKey b ↔ foldName a = foldName b := by
  rw [stringKey_eq, stringKey_eq]
  exact (map_injective_iff.mpr fun _ _ => UInt8.toNat_inj.mp).eq_iff

theorem nameMatches_iff :
    nameMatches want e ↔ stringKey want = stringKey (ntfsNameToAscii e.name) := by
  rw [stringKey_inj, nameMatches, decide_eq_true_eq]
  rfl

/-- All entries of a directory, so many levels deep. -/
def within (v : Mount) (r : Record) (img : Image) (levels : ℕ) : List Entry :=
  r.indexRoot.elim [] fun ir => ixWalkNode v r img levels ir.node

variable {a b : List UInt8} (h : foldName a = foldName b)

include h

theorem nameMatches_fold : nameMatches a = nameMatches b := by
  funext e
  rw [Bool.eq_iff_iff, nameMatches_iff, nameMatches_iff, stringKey_inj.mpr h]

theorem findName_fold (v : Mount) (img : Image) (record : ℕ) :
    findName v img record a = findName v img record b := by
  rw [findName, findName, nameMatches_fold h]

theorem ntfsNameCmp_fold (name : List UInt16) : ntfsNameCmp name a = ntfsNameCmp name b := by
  have hkey := stringKey_inj.mpr h
  cases hb : ntfsNameCmp name b with
  | eq => rw [ntfsNameCmp_eq, hkey, ← ntfsNameCmp_eq, hb]
  | lt => rw [ntfsNameCmp_lt, hkey, ← ntfsNameCmp_lt, hb]
  | gt => rw [ntfsNameCmp_gt, hkey, ← ntfsNameCmp_gt, hb]

theorem ixSeek_fold : ixSeek a = ixSeek b := by
  funext slots
  induction slots with
  | nil => rfl
  | cons s slots ih => rw [ixSeek, ixSeek, ntfsNameCmp_fold h, ih]

theorem ixFindFrom_fold (v : Mount) (r : Record) (img : Image) (levels : ℕ) (n : IxNode) :
    ixFindFrom v r img a levels n = ixFindFrom v r img b levels n := by
  induction levels generalizing n with
  | zero => rw [ixFindFrom, ixFindFrom, ixSeek_fold h]
  | succ levels ih =>
    rw [ixFindFrom, ixFindFrom, ixSeek_fold h]
    simp only [ih]

theorem ixLevel_fold (v : Mount) (bsize : ℕ) (enter : Option ℕ → IxNode → Op Landing) (tries : ℕ)
    (place : Option ℕ) (n : IxNode) :
    ixLevel v bsize a enter tries place n = ixLevel v bsize b enter tries place n := by
  induction tries generalizing place n with
  | zero => rfl
  | succ tries ih =>
    rw [ixLevel, ixLevel, ixSeek_fold h]
    simp only [ih]

theorem ixDescend_fold
    (v : Mount) (bsize : ℕ) (limit : Refusal) (levels : ℕ) (place : Option ℕ) (n : IxNode) :
    ixDescend v bsize a limit levels place n = ixDescend v bsize b limit levels place n := by
  induction levels generalizing place n with
  | zero => rw [ixDescend, ixDescend, ixSeek_fold h]
  | succ levels ih =>
    have henter : ixDescend v bsize a limit levels = ixDescend v bsize b limit levels := by
      funext place n
      exact ih place n
    rw [ixDescend, ixDescend, henter, ixLevel_fold h]

/-- What a deletion does depends on the name up to its case. -/
theorem ntfsDeleteFile_fold (v : Mount) (dir : ℕ) :
    ntfsDeleteFile v dir a = ntfsDeleteFile v dir b := by
  have hremove : ntfsIndexRemove v a = ntfsIndexRemove v b := by
    rw [ntfsIndexRemove, ntfsIndexRemove]
    simp only [ixDescend_fold h]
  have hfind : ∀ r img, ixFindRef v r img a = ixFindRef v r img b := by
    intro r img
    simp only [ixFindRef, ixFindFrom_fold h]
  rw [ntfsDeleteFile, hremove]
  refine congrArg _ (funext fun _ => congrArg _ (funext fun s => ?_))
  simp only
  cases s.img.mft dir with
  | none => rfl
  | some r =>
    simp only
    rw [hfind]

end Vextro.Ntfs
