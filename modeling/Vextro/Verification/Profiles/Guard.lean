import Vextro.Verification.Profiles.Spelling
import Vextro.Verification.Accounts.Survival

/-! Whatever way a path is spelled, the guard knows whose profile the driver finds with it. -/

namespace Vextro.Profile

open Accounts Segments List
open Ntfs
  (Mount Image Found Entry Tree Reachable foldName upcaseByte lookupFrom lookupStart ntfsLookup
  listed skipSlashes pathComponents recordOfRef ntfsMftRoot)

variable {root comp : List UInt8} {u : Account} {record : ℕ}

/-! ## Names as bytes -/

/-- The byte of a character as the guard compares it. -/
def foldChar (c : Char) : UInt8 := upcaseByte (UInt8.ofNat c.toNat)

theorem foldChar_inj {c d : Char} (hc : plainChar c) (hd : plainChar d)
    (h : foldChar c = foldChar d) : c = d := by
  revert h
  refine plainChar_cases (p := fun c => foldChar c = foldChar d → c = d) ?_ ?_ hc
  · refine plainChar_cases (p := fun d => ∀ n : Fin 26,
      foldChar (Char.ofNat (97 + n)) = foldChar d → Char.ofNat (97 + n) = d) ?_ ?_ hd
    · decide +kernel
    · decide +kernel
  refine plainChar_cases (p := fun d => ∀ n : Fin 10, foldChar (Char.ofNat (48 + n)) = foldChar d →
    Char.ofNat (48 + n) = d) ?_ ?_ hd
  · decide +kernel
  · decide +kernel

theorem plainChar_byte {c : Char} (h : plainChar c) :
    UInt8.ofNat c.toNat ≠ slash ∧ foldChar c ≠ dot :=
  plainChar_cases (p := fun c => UInt8.ofNat c.toNat ≠ slash ∧ foldChar c ≠ dot) (by decide +kernel)
    (by decide +kernel) h

theorem foldName_bytesOf (name : List Char) : foldName (bytesOf name) = name.map foldChar := by
  simp [foldName, bytesOf, foldChar]

theorem bytesOf_plain {name : List Char} (h : userNameOk name = none) :
    Plain slash (bytesOf name) := by
  obtain ⟨hne, -, hchars⟩ := plainChar_of_userNameOk h
  refine ⟨by simpa [bytesOf] using hne, fun hmem => ?_⟩
  obtain ⟨c, hc, hslash⟩ := mem_map.mp hmem
  exact (plainChar_byte (hchars c hc)).1 hslash

theorem foldName_bytesOf_ne_dot {name : List Char} (h : userNameOk name = none) :
    foldName (bytesOf name) ≠ [dot] := by
  obtain ⟨-, -, hchars⟩ := plainChar_of_userNameOk h
  rw [foldName_bytesOf]
  intro hdot
  obtain ⟨c, rfl, hc⟩ := map_eq_singleton_iff.mp hdot
  exact (plainChar_byte (hchars c (by simp))).2 hc

theorem foldName_bytesOf_inj {a b : List Char} (ha : userNameOk a = none) (hb : userNameOk b = none)
    (h : foldName (bytesOf a) = foldName (bytesOf b)) : a = b := by
  obtain ⟨-, -, ha⟩ := plainChar_of_userNameOk ha
  obtain ⟨-, -, hb⟩ := plainChar_of_userNameOk hb
  rw [foldName_bytesOf, foldName_bytesOf] at h
  clear * - ha hb h
  induction a generalizing b with
  | nil => simpa [eq_comm] using h
  | cons c a ih =>
    cases b with
    | nil => cases h
    | cons d b =>
      obtain ⟨hcd, hrest⟩ := cons.inj h
      obtain ⟨hc, ha⟩ := forall_mem_cons.mp ha
      obtain ⟨hd, hb⟩ := forall_mem_cons.mp hb
      rw [foldChar_inj hc hd hcd, ih hrest ha hb]

/-! ## Profiles -/

/-- The two places a profile can be in. -/
inductive Home : List UInt8 → List UInt8 → Prop
  | root : Home profileRoot profileRoot.tail
  | legacy : Home profileLegacy profileLegacy.tail

namespace Home

variable (h : Home root comp)
include h

theorem spec :
    root = slash :: comp ∧ Plain slash comp ∧ foldName comp ≠ [dot] ∧ comp.length ≤ 22 := by
  cases h <;> exact ⟨rfl, ⟨by decide, by decide +kernel⟩, by decide +kernel, by decide⟩

theorem profilePath_eq (u : Account) :
    profilePath root u = spell slash [comp, bytesOf u.name] := by
  rw [profilePath, h.spec.1]
  simp [spell]

theorem segments (hu : userNameOk u.name = none) :
    segments slash (profilePath root u) = [comp, bytesOf u.name] := by
  rw [h.profilePath_eq u]
  refine segments_spell fun c hc => ?_
  simp only [mem_cons, not_mem_nil, or_false] at hc
  rcases hc with rfl | rfl
  · exact h.spec.2.1
  · exact bytesOf_plain hu

theorem short (hu : userNameOk u.name = none) :
    (profilePath root u).length < profilePathMax := by
  have hcomp := h.spec.2.2.2
  have hname := (plainChar_of_userNameOk hu).2.1
  rw [profilePath, h.spec.1]
  simp only [length_append, length_cons, bytesOf, length_map, profilePathMax]
  omega

end Home

/-- The account's profile is this directory of the volume. -/
def IsProfile (v : Mount) (img : Image) (u : Account) (record : ℕ) : Prop :=
  ∃ root comp f, Home root comp ∧ ntfsLookup v img (profilePath root u) = some f ∧ f.isDir = true ∧
  f.record = record

/-- Resolving the path comes through this directory. -/
def Enters (v : Mount) (img : Image) (path : List UInt8) (record : ℕ) : Prop :=
  ∃ front back f, pathComponents (path.length + 1) (skipSlashes path) = front ++ back ∧
    lookupFrom v img front lookupStart = some f ∧ f.record = record

variable {v : Mount} {img : Image}

theorem IsProfile.steps (h : IsProfile v img u record) (hu : userNameOk u.name = none) :
    ∃ root comp home, ∃ e e' : Entry, Home root comp ∧ e ∈ listed v img ntfsMftRoot ∧ e.isDir ∧
      foldName comp = e.shown ∧ home = recordOfRef e.ref ∧ e' ∈ listed v img home ∧ e'.isDir ∧
      foldName (bytesOf u.name) = e'.shown ∧ record = recordOfRef e'.ref := by
  obtain ⟨root, comp, f, hhome, hlookup, hdir, hrec⟩ := h
  rw [ntfsLookup] at hlookup
  split at hlookup
  · cases hlookup
  rw [pathComponents_absolute (hhome.short hu), hhome.segments hu] at hlookup
  have hlast : lookupFrom v img ([comp] ++ [bytesOf u.name]) lookupStart = some f := hlookup
  obtain ⟨d, e', hd, hddir, he', hname, hfrec, hfdir⟩ := Ntfs.lookupFrom_concat hlast
  have hfirst : lookupFrom v img ([] ++ [comp]) lookupStart = some d := hd
  obtain ⟨r, e, hr, -, he, hcomp, hdrec, hedir⟩ := Ntfs.lookupFrom_concat hfirst
  cases hr
  exact ⟨root, comp, d.record, e, e', hhome, he, hedir ▸ hddir, hcomp, hdrec, he', hfdir ▸ hdir,
    hname, hrec.symm.trans hfrec⟩

/-- A path into a profile is the profile's, after any number of dots. -/
theorem Enters.components (htree : Tree v img)
    (hu : userNameOk u.name = none) (hprofile : IsProfile v img u record) {path : List UInt8}
    (hshort : path.length < profilePathMax) (h : Enters v img path record) :
    ∃ root comp dots c c' back, Home root comp ∧ segments slash path = dots ++ c :: c' :: back ∧
      (∀ d ∈ dots, d = [dot]) ∧ foldName c = foldName comp ∧
      foldName c' = foldName (bytesOf u.name) := by
  obtain ⟨root, comp, home, e, e', hhome, he, hedir, hcomp, rfl, he', he'dir, hname, rfl⟩ :=
    hprofile.steps hu
  obtain ⟨front, back, f, hpath, hf, hfrec⟩ := h
  rw [pathComponents_absolute hshort] at hpath
  have hreach : Reachable v img (recordOfRef e.ref) := .entry .root he hedir
  -- neither of the two directories is the root, which is shown as a dot
  have hhomeNe : recordOfRef e.ref ≠ ntfsMftRoot := by
    intro hroot
    exact hhome.spec.2.2.1 (hcomp.trans (htree.root .root he hroot).2)
  have hrecordNe : recordOfRef e'.ref ≠ ntfsMftRoot := by
    intro hroot
    exact foldName_bytesOf_ne_dot hu (hname.trans (htree.root hreach he' hroot).2)
  obtain ⟨front', c', d, rfl, hd, hdrec, hc'⟩ := htree.above hreach he' he'dir hrecordNe hf hfrec
  obtain ⟨dots, c, r, rfl, hr, hrrec, hc⟩ := htree.above .root he hedir hhomeNe hd hdrec
  refine ⟨root, comp, dots, c, c', back, hhome, ?_, htree.dots hr hrrec, hc.trans hcomp.symm,
    hc'.trans hname.symm⟩
  rw [hpath]
  simp

/-! ## The guard -/

theorem Home.owner_within (h : Home root comp) {canon : List UInt8}
    (hwithin : profWithin canon (profilePath root u)) :
    (profWithin canon (profilePath profileRoot u) ||
      profWithin canon (profilePath profileLegacy u)) := by
  cases h
  · simp [hwithin]
  · simp [hwithin]

/-- An account that the guard takes for the owner has its name there. -/
theorem owner_name {w : Account} (hw : userNameOk w.name = none) {c c' : List UInt8}
    {back : List (List UInt8)} (hplain : ∀ comp ∈ c :: c' :: back, Plain slash comp)
    (h : profWithin (spell slash (c :: c' :: back)) (profilePath profileRoot w) ||
      profWithin (spell slash (c :: c' :: back)) (profilePath profileLegacy w)) :
    foldName c' = foldName (bytesOf w.name) := by
  have hhome : ∃ root comp, Home root comp ∧
      profWithin (spell slash (c :: c' :: back)) (profilePath root w) := by
    rcases Bool.or_eq_true_iff.mp h with h | h
    · exact ⟨_, _, .root, h⟩
    · exact ⟨_, _, .legacy, h⟩
  obtain ⟨root, comp, hhome, hwithin⟩ := hhome
  have hfront := profWithin_components hwithin
  rw [segments_spell hplain, hhome.segments hw] at hfront
  obtain ⟨rest, hrest⟩ := hfront
  simp only [map_cons, cons_append, cons.injEq] at hrest
  exact hrest.2.1.symm

/-- The guard refuses every spelling of a path into another account's profile, for reading and
for writing. -/
theorem profMay_refuses
    {s : Users} (htree : Tree v img) (hnamed : Named s.users) (hsigned : 0 ≤ s.current)
    (hadmin : userIsAdmin s s.current = false) {i : ℕ} {u : Account} (hu : s.users[i]? = some u)
    (hother : (i : ℤ) ≠ s.current) {record : ℕ} (hprofile : IsProfile v img u record)
    (path : List UInt8) (henters : Enters v img (fsNative path) record) (write : Bool) :
    (profMay s (fsNative path) write).isSome := by
  have hok := hnamed.valid u (mem_of_getElem? hu)
  have habs := fsNative_absolute path
  obtain ⟨root, comp, dots, c, c', back, hhome, hseg, hdots, hc, hc'⟩ :=
    henters.components htree hok hprofile habs.short
  have hcdot : c ≠ [dot] := by
    rintro rfl
    exact hhome.spec.2.2.1 (hc.symm.trans rfl)
  have hc'dot : c' ≠ [dot] := by
    rintro rfl
    exact foldName_bytesOf_ne_dot hok (hc'.symm.trans rfl)
  have hkept : kept (fsNative path) = c :: c' :: back.filter (· ≠ [dot]) := by
    have hnone : dots.filter (· ≠ [dot]) = [] := by
      rw [filter_eq_nil_iff]
      intro d hd
      simp [hdots d hd]
    rw [kept, hseg, filter_append, hnone]
    simp [hcdot, hc'dot]
  have hplain : ∀ comp ∈ c :: c' :: back.filter (· ≠ [dot]), Plain slash comp := by
    intro d hd
    rw [← hkept] at hd
    exact plain_of_mem (mem_of_mem_filter hd)
  have hwithin : profWithin (spell slash (c :: c' :: back.filter (· ≠ [dot])))
      (profilePath root u) := by
    have hfold : [c, c'].map foldName = [comp, bytesOf u.name].map foldName := by simp [hc, hc']
    rw [hhome.profilePath_eq u]
    exact profWithin_spell hfold _
  rw [profMay, if_neg (by omega), hadmin, profCanon_eq habs (by simp [hkept]), hkept]
  simp only [Bool.false_eq_true, if_false]
  split
  · simp
  rename_i canon heq
  split at heq
  · cases heq
  cases heq
  -- the first account that matches has the same name, so it is this one
  cases howner : profOwnerOf s.users (spell slash (c :: c' :: back.filter (· ≠ [dot]))) with
  | none =>
    rw [profOwnerOf, findIdx?_eq_none_iff] at howner
    have := howner u (mem_of_getElem? hu)
    rw [hhome.owner_within hwithin] at this
    cases this
  | some owner =>
    rw [profOwnerOf, findIdx?_eq_some_iff_getElem] at howner
    obtain ⟨hlt, hmatch, -⟩ := howner
    have hw := getElem?_eq_getElem hlt
    have hwok := hnamed.valid _ (getElem_mem hlt)
    have hname := foldName_bytesOf_inj hok hwok (hc'.symm.trans (owner_name hwok hplain hmatch))
    have hsame : owner = i := hnamed.index_eq hw hu hname.symm
    simp only
    rw [if_neg (by rw [hsame]; exact hother)]
    split <;> simp

/-! A small volume with `/home/bob`. -/

def rootEntry : Entry := Ntfs.ixMakeEntry 5 [dot] true 0 0 0

def homeEntry : Entry := Ntfs.ixMakeEntry 40 (bytesOf ['h', 'o', 'm', 'e']) true 0 0 0

def bobEntry : Entry := Ntfs.ixMakeEntry 41 (bytesOf ['b', 'o', 'b']) true 0 0 0

def homeVolume : Image :=
  Ntfs.smallVolume [(5, Ntfs.smallDirectory [rootEntry, homeEntry]),
    (40, Ntfs.smallDirectory [bobEntry]),
    (41, Ntfs.smallDirectory [])]

theorem homeVolume_listed {e : Entry} (h : e ∈ listed Ntfs.smallMount homeVolume record) :
    record = 5 ∧ e = rootEntry ∨ record = 5 ∧ e = homeEntry ∨ record = 40 ∧ e = bobEntry := by
  obtain ⟨r, hr, he⟩ := Ntfs.listed_smallVolume rfl h
  simp only [mem_cons, not_mem_nil, or_false] at hr
  rcases hr with ⟨rfl, rfl⟩ | ⟨rfl, rfl⟩ | ⟨rfl, rfl⟩
  · have hroot : e ∈ [rootEntry, homeEntry] := he
    simpa using hroot
  · have hhome : e ∈ [bobEntry] := he
    simpa using hhome
  · cases he

theorem homeVolume_tree : Tree Ntfs.smallMount homeVolume := by
  constructor
  · intro record e _ he href
    rcases homeVolume_listed he with ⟨rfl, rfl⟩ | ⟨rfl, rfl⟩ | ⟨rfl, rfl⟩
    · exact ⟨rfl, rfl⟩
    · exact absurd href (by decide)
    · exact absurd href (by decide)
  intro record record' e e' _ _ he he' _ href hne
  rcases homeVolume_listed he with ⟨rfl, rfl⟩ | ⟨rfl, rfl⟩ | ⟨rfl, rfl⟩ <;>
    rcases homeVolume_listed he' with ⟨rfl, rfl⟩ | ⟨rfl, rfl⟩ | ⟨rfl, rfl⟩ <;>
    first
    | exact ⟨rfl, rfl⟩
    | exact absurd rfl hne
    | exact absurd href (by decide)

/-- Amy is signed in, and Bob has an account too. -/
def amySignedIn : Users where
  users := [⟨['a', 'm', 'y'], .zero, .zero, false⟩,
    ⟨['b', 'o', 'b'], .zero, .zero, false⟩]
  current := 0

/-- `C:\.\HOME\\Bob` -/
def bobElsewhere : List UInt8 :=
  bytesOf ['C', ':', '\\', '.', '\\', 'H', 'O', 'M', 'E', '\\', '\\', 'B', 'o', 'b']

theorem profMay_refuses_amy : (profMay amySignedIn (fsNative bobElsewhere) false).isSome := by
  have hnamed : Named amySignedIn.users := ⟨by decide +kernel, by decide +kernel⟩
  have hprofile : IsProfile Ntfs.smallMount homeVolume (amySignedIn.users.get ⟨1, by decide⟩) 41 :=
    ⟨_, _, ⟨41, 40, true, 0⟩, .legacy, by decide +kernel, rfl, rfl⟩
  have henters : Enters Ntfs.smallMount homeVolume (fsNative bobElsewhere) 41 :=
    ⟨_, [], ⟨41, 40, true, 0⟩, (append_nil _).symm, by decide +kernel, rfl⟩
  exact profMay_refuses homeVolume_tree hnamed (by decide) (by decide) (i := 1) rfl
    (by decide) hprofile bobElsewhere henters false

end Vextro.Profile
