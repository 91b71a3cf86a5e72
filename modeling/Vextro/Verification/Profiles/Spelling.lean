import Vextro.Model.Profile
import Vextro.Verification.Ntfs.Tree
import Vextro.Verification.Shared.Segments

/-! The driver and the guard see the same components of a path. -/

namespace Vextro.Profile

open Accounts Segments List
open Ntfs (upcaseByte foldName skipSlashes pathComponents)

variable {path : List UInt8}

/-! ## Absolute paths -/

/-- What `fs_native` leaves in the buffer. -/
structure Absolute (path : List UInt8) : Prop where
  head : path.head? = some slash
  forward : backslash ∉ path
  short : path.length < profilePathMax

theorem fsNative_absolute (path : List UInt8) : Absolute (fsNative path) := by
  rw [fsNative]
  generalize hp : (if ((dropDrive path).head?).elim false isSeparator then dropDrive path
    else slash :: dropDrive path) = p
  have hhead : ∃ c rest, p = c :: rest ∧ isSeparator c := by
    rw [← hp]
    split
    · rename_i h
      cases hd : dropDrive path with
      | nil => simp [hd] at h
      | cons c rest => exact ⟨c, rest, rfl, by simpa [hd] using h⟩
    · exact ⟨slash, _, rfl, rfl⟩
  obtain ⟨c, rest, rfl, hc⟩ := hhead
  refine ⟨?_, ?_, ?_⟩
  · have : (if c = backslash then slash else c) = slash := by
      by_cases hb : c = backslash
      · rw [if_pos hb]
      · simpa [isSeparator, hb] using hc
    simp [profilePathMax, this]
  · intro hmem
    obtain ⟨d, -, hd⟩ := mem_map.mp (mem_of_mem_take hmem)
    split at hd
    · exact absurd hd (by decide)
    · contradiction
  · rw [length_take]
    exact lt_of_le_of_lt (Nat.min_le_left _ _) (by decide)

theorem fsNative_of_absolute (h : Absolute path) : fsNative path = path := by
  obtain ⟨c, rest, rfl⟩ : ∃ c rest, path = c :: rest := by
    cases path with
    | nil => exact absurd h.head (by simp)
    | cons c rest => exact ⟨c, rest, rfl⟩
  obtain rfl : c = slash := by simpa using h.head
  have hdrive : dropDrive (slash :: rest) = slash :: rest := by
    unfold dropDrive
    split
    · rename_i d e tail heq
      obtain rfl : slash = d := (List.cons.inj heq).1
      rw [if_neg (by simp [isLetter, slash])]
    · rfl
  have hsame : ((slash :: rest).map fun c => if c = backslash then slash else c) = slash ::
      rest := by
    have hid : ∀ c ∈ slash :: rest, (if c = backslash then slash else c) = id c := by
      intro c hc
      refine if_neg ?_
      rintro rfl
      exact h.forward hc
    rw [map_congr_left hid, map_id]
  have hsep : ((slash :: rest).head?).elim false isSeparator = true := rfl
  rw [fsNative, hdrive]
  simp only [hsep, if_true]
  rw [hsame, take_of_length_le]
  exact Nat.le_sub_one_of_lt h.short

/-! ## Components -/

theorem first_component (hne : path ≠ []) (hhead : path.head? ≠ some slash) :
    Plain slash (path.takeWhile (· ≠ slash)) ∧ segments slash path =
        path.takeWhile (· ≠ slash) :: segments slash (path.dropWhile (· ≠ slash)) ∧
      (path.takeWhile (· ≠ slash)).length + (path.dropWhile (· ≠ slash)).length = path.length := by
  have hplain : Plain slash (path.takeWhile (· ≠ slash)) := by
    refine ⟨?_, sep_not_mem_takeWhile path⟩
    cases path with
    | nil => exact absurd rfl hne
    | cons c path =>
      rw [takeWhile_cons_of_pos (by simpa using hhead)]
      exact cons_ne_nil _ _
  have hsplit := takeWhile_append_dropWhile (p := (· ≠ slash)) (l := path)
  refine ⟨hplain, ?_, ?_⟩
  · conv_lhs => rw [← hsplit]
    exact segments_cons hplain (follows_dropWhile path)
  · conv_rhs => rw [← hsplit]
    rw [length_append]

theorem skipSlashes_head (path : List UInt8) : (skipSlashes path).head? ≠ some slash := by
  intro h
  have := List.head?_dropWhile_not (· = (0x2F : UInt8)) path
  rw [skipSlashes] at h
  rw [h] at this
  exact absurd this (by decide)

theorem skipSlashes_length (path : List UInt8) : (skipSlashes path).length ≤ path.length :=
  (dropWhile_suffix _).length_le

theorem skipSlashes_length_lt (h : path.head? = some slash) :
    (skipSlashes path).length < path.length := by
  cases path with
  | nil => exact absurd h (by simp)
  | cons c path =>
    obtain rfl : c = slash := by simpa using h
    exact Nat.lt_succ_of_le (skipSlashes_length path)

theorem segments_skipSlashes (path : List UInt8) :
    segments slash (skipSlashes path) = segments slash path :=
  segments_dropWhile path

theorem pathComponents_eq (fuel : ℕ) (hfuel : path.length < fuel)
    (hshort : path.length < profilePathMax) (hhead : path.head? ≠ some slash) :
    pathComponents fuel path = segments slash path := by
  induction fuel generalizing path with
  | zero => exact absurd hfuel (Nat.not_lt_zero _)
  | succ fuel ih =>
    by_cases hne : path = []
    · subst hne
      simp [pathComponents]
    obtain ⟨hplain, hseg, hlen⟩ := first_component hne hhead
    have hpos : 0 < (path.takeWhile (· ≠ slash)).length := length_pos_of_ne_nil hplain.1
    have hcomp : (path.takeWhile (· ≠ (0x2F : UInt8))).take 255 = path.takeWhile (· ≠ slash) := by
      refine take_of_length_le ?_
      have : (path.takeWhile (· ≠ slash)).length ≤ 255 := by
        simp only [profilePathMax] at hshort
        omega
      exact this
    have hrest : path.drop (path.takeWhile (· ≠ slash)).length = path.dropWhile (· ≠ slash) := by
      conv_lhs => rw [← takeWhile_append_dropWhile (p := (· ≠ slash)) (l := path)]
      rw [drop_append_of_le_length (by simp)]
      simp
    have hskip := skipSlashes_length (path.dropWhile (· ≠ slash))
    rw [pathComponents]
    simp only [hcomp]
    rw [if_neg hplain.1, hrest, hseg, ih (by omega) (by omega) (skipSlashes_head _),
      segments_skipSlashes]

theorem pathComponents_absolute (h : path.length < profilePathMax) :
    pathComponents (path.length + 1) (skipSlashes path) = segments slash path := by
  have hlen := skipSlashes_length path
  rw [pathComponents_eq _ (by omega) (by omega) (skipSlashes_head path), segments_skipSlashes]

/-! ## The canonical form -/

def kept (path : List UInt8) : List (List UInt8) := (segments slash path).filter (· ≠ [dot])

/-- The loop keeps the components other than `.`, and refuses `..`. -/
theorem canonLoop_eq (fuel : ℕ) {out : List UInt8} (hfuel : path.length < fuel)
    (hpath : Follows slash path) (hroom : out.length + path.length < profilePathMax) :
    canonLoop fuel path out =
      if [dot, dot] ∈ segments slash path then none else some (out ++ spell slash (kept path)) := by
  induction fuel generalizing path out with
  | zero => exact absurd hfuel (Nat.not_lt_zero _)
  | succ fuel ih =>
    have hseg := segments_skipSlashes path
    rw [canonLoop]
    by_cases hne : skipSlashes path = []
    · simp [hne, ← hseg, kept, spell]
    have hslash : path.head? = some slash := by
      cases path with
      | nil => exact absurd rfl hne
      | cons c path => simp [hpath c rfl]
    have hlt := skipSlashes_length_lt hslash
    obtain ⟨hplain, hfirst, hlen⟩ := first_component hne (skipSlashes_head path)
    have hfollows : Follows slash ((skipSlashes path).dropWhile (· ≠ slash)) := follows_dropWhile _
    rw [hseg] at hfirst
    simp only [hne, if_false]
    generalize (skipSlashes path).takeWhile (· ≠ slash) = comp at *
    generalize (skipSlashes path).dropWhile (· ≠ slash) = rest at *
    by_cases hup : comp = [dot, dot]
    · simp [hup, hfirst]
    have hmem : [dot, dot] ∈ segments slash path ↔ [dot, dot] ∈ segments slash rest := by
      rw [hfirst, mem_cons]
      exact or_iff_right (Ne.symm hup)
    rw [if_neg hup]
    simp only [hmem]
    by_cases hhere : comp = [dot]
    · rw [ih (by omega) hfollows (by omega)]
      simp [kept, hfirst, hhere]
    rw [if_neg hhere, if_neg (by omega)]
    rw [ih (by omega) hfollows (by simp only [length_append, length_cons]; omega)]
    simp [kept, hfirst, hhere, spell]

theorem profCanon_eq (h : Absolute path) (hkept : kept path ≠ []) : profCanon path =
      if [dot, dot] ∈ segments slash path then none else some (spell slash (kept path)) := by
  have hfollows : Follows slash path := by
    intro c hc
    rw [h.head] at hc
    exact (Option.some.inj hc).symm
  have hspell : spell slash (kept path) ≠ [] := by
    cases hk : kept path with
    | nil => exact absurd hk hkept
    | cons comp comps => exact cons_ne_nil _ _
  rw [profCanon, fsNative_of_absolute h,
    canonLoop_eq _ (Nat.lt_succ_self _) hfollows (by simpa using h.short)]
  split
  · rfl
  · simp [hspell]

/-! ## Inside -/

theorem upcaseByte_slash :
    ∀ c : UInt8, upcaseByte c = slash ↔ c = slash := Ntfs.forall_byte (by decide +kernel)

/-- One path is within another up to case, and at a slash. -/
theorem profWithin_split (canon within : List UInt8) : profWithin canon within ↔
      ∃ front back, canon = front ++ back ∧ foldName front = foldName within ∧
      Follows slash back := by
  induction within generalizing canon with
  | nil =>
    rw [profWithin]
    constructor
    · intro h
      refine ⟨[], canon, rfl, rfl, ?_⟩
      cases canon with
      | nil => exact follows_nil
      | cons c canon => simpa [Follows] using h
    · rintro ⟨front, back, rfl, hfold, hback⟩
      obtain rfl : front = [] := by simpa [foldName] using hfold
      cases back with
      | nil => rfl
      | cons c back => simpa [Follows] using hback
  | cons p within ih =>
    cases canon with
    | nil =>
      rw [profWithin]
      constructor
      · intro h
        exact absurd h (by simp)
      rintro ⟨front, back, happ, hfold, -⟩
      obtain ⟨rfl, -⟩ := append_eq_nil_iff.mp happ.symm
      exact absurd hfold (by simp [foldName])
    | cons c canon =>
      rw [profWithin, Bool.and_eq_true, decide_eq_true_eq, ih]
      constructor
      · rintro ⟨hc, front, back, rfl, hfold, hback⟩
        exact ⟨c :: front, back, rfl, by simpa [foldName, hc] using hfold, hback⟩
      rintro ⟨front, back, happ, hfold, hback⟩
      cases front with
      | nil => exact absurd hfold (by simp [foldName])
      | cons d front =>
        obtain ⟨rfl, rfl⟩ := List.cons.inj happ
        obtain ⟨hd, hfold⟩ := List.cons.inj hfold
        exact ⟨hd, front, back, rfl, hfold, hback⟩

theorem segments_foldName (path : List UInt8) :
    segments slash (foldName path) = (segments slash path).map foldName :=
  segments_map upcaseByte_slash path

theorem profWithin_components {canon within : List UInt8} (h : profWithin canon within) :
    ((segments slash within).map foldName) <+: (segments slash canon).map foldName := by
  obtain ⟨front, back, rfl, hfold, hback⟩ := (profWithin_split canon within).mp h
  rw [segments_append front hback, map_append, ← segments_foldName within, ← hfold,
    segments_foldName front]
  exact prefix_append _ _

theorem foldName_spell (comps : List (List UInt8)) :
    foldName (spell slash comps) = spell slash (comps.map foldName) := by
  induction comps with
  | nil => rfl
  | cons comp comps ih =>
    calc foldName (spell slash (comp :: comps)) = slash ::
        (foldName comp ++ foldName (spell slash comps)) := by simp [foldName, spell]; decide
      _ = slash :: (foldName comp ++ spell slash (comps.map foldName)) := by rw [ih]
      _ = spell slash ((comp :: comps).map foldName) := rfl

theorem profWithin_spell {front within : List (List UInt8)}
    (h : front.map foldName = within.map foldName) (back : List (List UInt8)) :
    profWithin (spell slash (front ++ back)) (spell slash within) := by
  refine (profWithin_split _ _).mpr
    ⟨spell slash front, spell slash back, ?_, ?_, follows_spell back⟩
  · simp [spell]
  · rw [foldName_spell, foldName_spell, h]

end Vextro.Profile
