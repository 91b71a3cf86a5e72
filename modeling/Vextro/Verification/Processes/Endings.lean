import Vextro.Verification.Processes.Accounts

/-! The ends of processes: each process reports its own once, and its parent is told of it if it is
still there.

The books of a system have the numbers of each process and its mark, beside the record of the
reports. Most calls leave them alone. -/

namespace Vextro.Processes

open Threads Signals List Function Option

variable {R : Change} {s s' u : System} {k a pid ppid : ℕ}

/-- The parent was told, in its own block, or there was no such process. -/
def Ending.Delivered (e : Ending) : Prop :=
  (∃ parent block c, (e.ppid, parent) ∈ e.running ∧ e.block parent = some block ∧
    e.told = [(block, c)] ∧ c.pid = e.pid) ∨
    (e.told = [] ∧ (e.ppid = 0 ∨ ∀ x ∈ e.running, x.1 ≠ e.ppid))

/-- What the books have of a process. -/
structure Entry where
  pid : ℕ
  ppid : ℕ
  reported : Bool

structure Books where
  spaces : ℕ → Option Entry
  next : ℕ
  ends : List Ending
  exits : List (ℕ × Child)
  lost : List Child

def Space.entry (sp : Space) : Entry := ⟨sp.pid, sp.ppid, sp.exitReported⟩

def System.books (s : System) : Books :=
  ⟨fun a => (s.spaces a).map Space.entry, s.nextSpace, s.ends, s.exits, s.lost⟩

/-- The spaces whose processes have reported their end. -/
def Books.ended (b : Books) : List ℕ := b.ends.map Ending.space

/-- No process reports its end twice, the mark tells whether it has, every exit on record is one of
those reports, and the parent gets it unless it is gone. -/
structure Books.Kept (b : Books) : Prop where
  once : b.ended.Nodup
  marked : ∀ a x, b.spaces a = some x → (x.reported = true ↔ a ∈ b.ended)
  numbers : ∀ e ∈ b.ends, ∀ x, b.spaces e.space = some x → x.pid = e.pid ∧ x.ppid = e.ppid
  fresh : ∀ a, b.next ≤ a → b.spaces a = none ∧ a ∉ b.ended
  exits : b.exits = b.ends.flatMap Ending.told
  told : b.lost = [] → ∀ e ∈ b.ends, e.Delivered

/-! ## Steps of the books -/

variable {b : Books}

theorem Books.Kept.born (h : b.Kept) {x : Entry} (hx : x.reported = false) :
    Books.Kept { b with spaces := update b.spaces b.next (some x), next := b.next + 1 } where
  once := h.once
  marked a y hy := by
    dsimp only at hy
    by_cases ha : a = b.next
    · subst ha
      rw [update_self] at hy
      rw [← some.inj hy, hx]
      exact iff_of_false Bool.false_ne_true (h.fresh _ le_rfl).2
    · rw [update_of_ne ha] at hy
      exact h.marked a y hy
  numbers e he y hy := by
    have hne : e.space ≠ b.next := fun heq =>
      (h.fresh _ le_rfl).2 (heq ▸ mem_map_of_mem he)
    dsimp only at hy
    rw [update_of_ne hne] at hy
    exact h.numbers e he y hy
  fresh a ha := by
    dsimp only
    rw [update_of_ne (Nat.ne_of_gt ha)]
    exact h.fresh a (Nat.le_of_succ_le ha)
  exits := h.exits
  told := h.told

theorem Books.Kept.gone (h : b.Kept) (a : ℕ) :
    Books.Kept { b with spaces := update b.spaces a none } := by
  have hkeep : ∀ c y, update b.spaces a none c = some y → b.spaces c = some y := by
    intro c y hy
    by_cases hc : c = a
    · rw [hc, update_self] at hy
      cases hy
    · rwa [update_of_ne hc] at hy
  refine ⟨h.once, fun c y hy => h.marked c y (hkeep c y hy),
    fun e he y hy => h.numbers e he y (hkeep _ y hy), fun c hc => ⟨?_, (h.fresh c hc).2⟩,
    h.exits, h.told⟩
  cases hy : update b.spaces a none c with
  | none => exact hy
  | some y => exact absurd ((hkeep c y hy).symm.trans (h.fresh c hc).1) (some_ne_none y)

theorem Books.Kept.report (h : b.Kept) {e : Ending} {lost : List Child}
    (hx : b.spaces e.space = some ⟨e.pid, e.ppid, false⟩)
    (htold : lost = [] → b.lost = [] ∧ e.Delivered) :
    Books.Kept { b with
      spaces := update b.spaces e.space (some ⟨e.pid, e.ppid, true⟩)
      ends := b.ends ++ [e]
      exits := b.exits ++ e.told
      lost } := by
  have hnot : e.space ∉ b.ended := fun hmem =>
    Bool.false_ne_true ((h.marked _ _ hx).mpr hmem)
  have hended : (b.ends ++ [e]).map Ending.space = b.ended ++ [e.space] := map_append
  refine ⟨?_, fun a y hy => ?_, fun e' he' y hy => ?_, fun a ha => ?_, ?_, fun hlost e' he' => ?_⟩
  · rw [Books.ended, hended]
    exact h.once.append (nodup_singleton _) fun a ha hae => hnot (mem_singleton.mp hae ▸ ha)
  · dsimp only at hy
    rw [Books.ended, hended, mem_append, mem_singleton]
    by_cases ha : a = e.space
    · subst ha
      rw [update_self] at hy
      rw [← some.inj hy]
      exact iff_of_true rfl (.inr rfl)
    · rw [update_of_ne ha] at hy
      rw [h.marked a y hy, or_iff_left ha]
  · dsimp only at hy
    by_cases ha : e'.space = e.space
    · rcases mem_append.mp he' with he' | he'
      · exact absurd (ha ▸ mem_map_of_mem he') hnot
      obtain rfl := mem_singleton.mp he'
      rw [update_self] at hy
      rw [← some.inj hy]
      exact ⟨rfl, rfl⟩
    · rw [update_of_ne ha] at hy
      refine h.numbers e' ?_ y hy
      exact (mem_append.mp he').resolve_right fun hmem => ha (mem_singleton.mp hmem ▸ rfl)
  · obtain ⟨hnone, hold⟩ := h.fresh a ha
    have hne : a ≠ e.space := by
      rintro rfl
      exact some_ne_none _ (hx.symm.trans hnone)
    dsimp only
    rw [update_of_ne hne, Books.ended, hended, mem_append, mem_singleton]
    exact ⟨hnone, not_or.mpr ⟨hold, hne⟩⟩
  · rw [h.exits, flatMap_append, flatMap_singleton]
  · obtain ⟨hlost', hdel⟩ := htold hlost
    rcases mem_append.mp he' with he' | he'
    · exact h.told hlost' e' he'
    · exact mem_singleton.mp he' ▸ hdel

/-! ## The books of a system -/

theorem modifySpace_books {f : Space → Space} (hf : ∀ sp, (f sp).entry = sp.entry) (s : System)
    (a : ℕ) : (s.modifySpace a f).books = s.books := by
  unfold System.books
  congr 1
  exact funext (modifySpace_map hf s a)

theorem modifySig_books (s : System) (a : ℕ) (f : Sig → Sig) : (s.modifySig a f).books = s.books :=
  modifySpace_books (fun _ => by rfl) s a

theorem setSpace_books {f : Space → Space} {sp : Space} (hsp : s.spaces a = some sp) :
    (s.modifySpace a f).books =
      { s.books with spaces := update s.books.spaces a (some (f sp).entry) } := by
  unfold System.books System.modifySpace
  congr 1
  funext b
  by_cases hb : b = a
  · subst hb
    simp [hsp]
  · simp [hb]

theorem addSpace_books (s : System) (sp : Space) :
    (s.addSpace sp).books =
      { s.books with
        spaces := update s.books.spaces s.nextSpace (some sp.entry)
        next := s.nextSpace + 1 } := by
  unfold System.books System.addSpace
  congr 1
  exact comp_update (Option.map Space.entry) s.spaces s.nextSpace _

theorem vmmDestroy_books (s : System) (a : ℕ) :
    (s.vmmDestroy a).books = { s.books with spaces := update s.books.spaces a none } := by
  unfold System.books System.vmmDestroy
  congr 1
  exact comp_update (Option.map Space.entry) s.spaces a none

theorem vlsSigOf_books (h : vlsSigOf s a = some s') : s'.books = s.books := by
  rcases vlsSigOf_cases h with ⟨rfl, -⟩ | ⟨sp, -, -, -, rfl⟩
  · rfl
  · exact modifySpace_books (fun _ => by rfl) s a

theorem Acts.books_of (hR : ∀ {k : ℕ} {s s' : System}, R k s s' → s'.books = s.books)
    (h : Acts R k s s') : s'.books = s.books := by
  induction h with
  | same => rfl
  | after _ hact _ ih =>
    refine Eq.trans ?_ ih
    cases hact with
    | sched => rfl
    | sig => exact modifySig_books _ _ _
    | block h => exact vlsSigOf_books h
    | other h => exact hR h

theorem Collect.books (h : Collect k s s') : s'.books = s.books := by
  cases h with
  | take => exact modifySig_books _ _ _
  | log | waits => rfl

/-! ## An end is reported -/

/-- Nobody is told anything. -/
def Silent : Change := fun _ _ _ => False

theorem Acts.addr (h : Acts Silent k s s') {n : ℕ} (hn : (s.sigOf a).map Sig.addr = some n) :
    (s'.sigOf a).map Sig.addr = some n := by
  induction h with
  | same => exact hn
  | after _ hact _ ih =>
    have hn := ih hn
    cases hact with
    | sched => exact hn
    | sig hf =>
      rw [modifySig_sigOf]
      split
      · rename_i hb
        subst hb
        obtain ⟨g, hg, rfl⟩ := map_eq_some_iff.mp hn
        simp [hg, hf g hg]
      · exact hn
    | block h =>
      rw [vlsSigOf_sigOf h]
      split
      · rename_i hb
        subst hb
        obtain ⟨g, hg, rfl⟩ := map_eq_some_iff.mp hn
        simp [hg]
      · exact hn
    | other h => exact h.elim

theorem vlsFindProcess_running (h : vlsFindProcess s pid = some a) : (pid, a) ∈ s.running := by
  rw [vlsFindProcess] at h
  split at h
  · cases h
  obtain ⟨i, hi, hslot⟩ := exists_of_findSome?_eq_some h
  refine mem_filterMap.mpr ⟨i, hi, ?_⟩
  obtain ⟨t, ht, hslot⟩ := bind_eq_some_iff.mp hslot
  rw [ht, bind_some]
  split
  · rename_i hfree
    rw [if_pos hfree] at hslot
    cases hslot
  rename_i hfree
  rw [if_neg hfree] at hslot
  obtain ⟨a', ha', hslot⟩ := bind_eq_some_iff.mp hslot
  split at hslot
  · rename_i hany
    cases hslot
    obtain ⟨sp, hsp, hpid⟩ := (any_eq_true _ _).mp hany
    rw [ha', bind_some, hsp, map_some, of_decide_eq_true hpid]
  · cases hslot

theorem vlsFindProcess_none (hpid : pid ≠ 0) (h : vlsFindProcess s pid = none) :
    ∀ x ∈ s.running, x.1 ≠ pid := by
  rintro ⟨n, a⟩ hx rfl
  rw [vlsFindProcess, if_neg hpid] at h
  obtain ⟨i, hi, hslot⟩ := mem_filterMap.mp hx
  have hnone := findSome?_eq_none_iff.mp h i hi
  obtain ⟨t, ht, hslot⟩ := bind_eq_some_iff.mp hslot
  rw [ht, bind_some] at hnone
  split at hslot
  · cases hslot
  rename_i hfree
  rw [if_neg hfree] at hnone
  obtain ⟨a', ha', hslot⟩ := bind_eq_some_iff.mp hslot
  obtain ⟨sp, hsp, heq⟩ := map_eq_some_iff.mp hslot
  cases heq
  simp [ha', hsp] at hnone

theorem recordChild_addr (c : Child) (g : Sig) : (recordChild c g).addr = g.addr := by
  rw [recordChild]
  split <;> rfl

/-- The parent is told, if there is one and there is memory for its block. -/
theorem vlsChildExited_books (s : System) (ppid : ℕ) (hpid : pid ≠ 0) (exitCode : Int)
    (killed : Bool) :
    ∃ told lost, (vlsChildExited s pid ppid exitCode killed).books =
        { s.books with exits := s.exits ++ told, lost } ∧ (lost = [] → s.lost = [] ∧
      ((∃ parent block c, (ppid, parent) ∈ s.running ∧
        ((vlsChildExited s pid ppid exitCode killed).sigOf parent).map Sig.addr = some block ∧
        told = [(block, c)] ∧ c.pid = pid) ∨
      (told = [] ∧ (ppid = 0 ∨ ∀ x ∈ s.running, x.1 ≠ ppid)))) := by
  have hsame : s.books = { s.books with exits := s.exits ++ [], lost := s.lost } := by
    rw [append_nil]
    rfl
  rw [vlsChildExited]
  split
  · rename_i hzero
    exact ⟨[], s.lost, hsame, fun hlost => ⟨hlost, .inr ⟨rfl, .inl (hzero.resolve_left hpid)⟩⟩⟩
  rename_i hzero
  split
  · rename_i hfind
    exact ⟨[], s.lost, hsame, fun hlost =>
      ⟨hlost, .inr ⟨rfl, .inr (vlsFindProcess_none (fun h0 => hzero (.inr h0)) hfind)⟩⟩⟩
  rename_i parent hfind
  dsimp only
  split
  · exact ⟨[], _, by rw [append_nil]; rfl, fun hlost => absurd hlost (by simp)⟩
  rename_i u hu
  obtain ⟨g, hg⟩ : ∃ g, u.sigOf parent = some g := by
    rw [vlsSigOf_sigOf hu, if_pos rfl]
    exact ⟨_, rfl⟩
  have hbooks := vlsSigOf_books hu
  set c : Child := ⟨pid, vlsEncodeStatus exitCode killed⟩ with hc
  set v : System := { u.modifySig parent (recordChild c) with
    exits := u.exits ++ (u.sigOf parent).toList.map fun g => (g.addr, c) } with hv
  have hacts : Acts Silent 1 v ((postWith (fun s _ _ => s) v parent sigChld).1.wakeSig parent) :=
    (postWith_acts (fun s _ _ => .same 0 s) _ _ _).trans (wakeSig_acts _ _)
  have hrecord : v.books = { u.books with exits := u.exits ++ [(g.addr, c)] } := by
    rw [← modifySig_books u parent (recordChild c), hv, hg]
    rfl
  have haddr : (v.sigOf parent).map Sig.addr = some g.addr := by
    refine (congrArg (Option.map Sig.addr) (modifySig_sigOf u parent parent _)).trans ?_
    simp [hg, recordChild_addr]
  refine ⟨[(g.addr, c)], u.lost, ?_, fun hlost => ⟨?_, .inl
    ⟨parent, g.addr, c, vlsFindProcess_running hfind, hacts.addr haddr, rfl, rfl⟩⟩⟩
  · rw [hacts.books_of fun h => h.elim, hrecord, hbooks]
    have hexits : u.exits = s.exits := congrArg Books.exits hbooks
    have hlost : u.lost = s.lost := congrArg Books.lost hbooks
    rw [hexits, hlost]
    rfl
  · rw [← hlost]
    exact (congrArg Books.lost hbooks).symm

/-- What happens to the books in a call: they are kept, and a process that is gone has reported
its end. -/
structure Tracked (s s' : System) : Prop where
  kept : s'.books.Kept
  ends : s.ends <+: s'.ends
  goes : ∀ a x, s.books.spaces a = some x → x.pid ≠ 0 →
    (∃ x', s'.books.spaces a = some x' ∧ x'.pid = x.pid ∧ x'.ppid = x.ppid) ∨ a ∈ s'.books.ended

theorem Tracked.of_books (h : s.books.Kept) (hb : s'.books = s.books) : Tracked s s' where
  kept := by rwa [hb]
  ends := by rw [show s'.ends = s.ends from congrArg Books.ends hb]
  goes a x hx _ := .inl ⟨x, by rw [hb, hx], rfl, rfl⟩

theorem Tracked.trans (h : Tracked s u) (h' : Tracked u s') : Tracked s s' where
  kept := h'.kept
  ends := h.ends.trans h'.ends
  goes a x hx hpid := by
    have hgone : a ∈ u.books.ended → a ∈ s'.books.ended := fun hmem =>
      (h'.ends.map Ending.space).subset hmem
    rcases h.goes a x hx hpid with ⟨y, hy, hp, hpp⟩ | hmem
    · rcases h'.goes a y hy (hp ▸ hpid) with ⟨z, hz, hp', hpp'⟩ | hmem
      · exact .inl ⟨z, hz, hp'.trans hp, hpp'.trans hpp⟩
      · exact .inr hmem
    · exact .inr (hgone hmem)

theorem vlsReportExit_tracked (h : s.books.Kept) (a : ℕ) (exitCode : Int) (killed : Bool) :
    Tracked s (vlsReportExit s a exitCode killed) := by
  rw [vlsReportExit]
  split
  · exact .of_books h rfl
  rename_i sp hsp
  split
  · exact .of_books h rfl
  rename_i hnew
  obtain ⟨hmark, hpid⟩ := not_or.mp hnew
  rw [Bool.not_eq_true] at hmark
  dsimp only
  set u := s.modifySpace a fun sp => { sp with exitReported := true } with hu
  have hubooks : u.books = { s.books with
      spaces := update s.books.spaces a (some ⟨sp.pid, sp.ppid, true⟩) } := setSpace_books hsp
  obtain ⟨told, lost, hbooks, hdel⟩ := vlsChildExited_books u sp.ppid hpid exitCode killed
  set s' := vlsChildExited u sp.pid sp.ppid exitCode killed with hs'
  have hdrop : s'.exits.drop u.exits.length = told := by
    rw [show s'.exits = u.exits ++ told from congrArg Books.exits hbooks, drop_left]
  have hx : s.books.spaces a = some ⟨sp.pid, sp.ppid, false⟩ := by
    rw [← hmark]
    exact congrArg (Option.map Space.entry) hsp
  rw [hdrop]
  set e : Ending := ⟨a, sp.pid, sp.ppid, u.running, told, fun b => (s'.sigOf b).map Sig.addr⟩
  have hlog : ({ s' with ends := s'.ends ++ [e] } : System).books = { s.books with
      spaces := update s.books.spaces e.space (some ⟨e.pid, e.ppid, true⟩)
      ends := s.books.ends ++ [e]
      exits := s.books.exits ++ e.told
      lost } := by
    have hends : s'.ends = s.ends := congrArg Books.ends hbooks
    have hspaces : s'.books.spaces = update s.books.spaces a (some ⟨sp.pid, sp.ppid, true⟩) := by
      rw [hbooks, hubooks]
    have hnext : s'.nextSpace = s.nextSpace := congrArg Books.next hbooks
    have hexits : s'.exits = s.exits ++ told := congrArg Books.exits hbooks
    have hlost : s'.lost = lost := congrArg Books.lost hbooks
    unfold System.books at hspaces ⊢
    simp only [hends, hnext, hexits, hlost]
    rw [← hspaces]
  refine ⟨?_, ?_, fun b x hb _ => .inl ?_⟩
  · rw [hlog]
    exact h.report hx hdel
  · exact ⟨[e], (congrArg Books.ends hlog).symm⟩
  · rw [hlog]
    by_cases hba : b = a
    · subst hba
      obtain rfl := some.inj (hx.symm.trans hb)
      exact ⟨_, update_self .., rfl, rfl⟩
    · exact ⟨x, by rw [← hb]; exact update_of_ne hba _ _, rfl, rfl⟩

/-- After the call, the end of the process is on record. -/
theorem vlsReportExit_ended (h : s.books.Kept) {x : Entry} (hx : s.books.spaces a = some x)
    (hpid : x.pid ≠ 0) (exitCode : Int) (killed : Bool) :
    a ∈ (vlsReportExit s a exitCode killed).books.ended := by
  obtain ⟨sp, hsp, rfl⟩ := map_eq_some_iff.mp hx
  rw [vlsReportExit]
  simp only [hsp]
  split
  · rename_i hold
    exact (h.marked a _ hx).mp (hold.resolve_right hpid)
  · exact mem_map_of_mem (mem_append_right _ (mem_singleton_self _))

theorem Acts.tracked (h : s.books.Kept) (hacts : Acts Report k s s') : Tracked s s' := by
  induction hacts with
  | same => exact .of_books h rfl
  | after _ hact _ ih =>
    have hu := ih h
    refine hu.trans ?_
    cases hact with
    | sched => exact .of_books hu.kept rfl
    | sig => exact .of_books hu.kept (modifySig_books _ _ _)
    | block h => exact .of_books hu.kept (vlsSigOf_books h)
    | other h =>
      cases h with
      | report => exact vlsReportExit_tracked hu.kept _ _ _
      | drop => exact .of_books hu.kept (modifySpace_books (fun _ => by rfl) _ _)

/-! ## Processes come and go -/

theorem Tracked.born (h : s.books.Kept) {x : Entry} (hx : x.reported = false)
    (hb : s'.books = { s.books with
      spaces := update s.books.spaces s.nextSpace (some x), next := s.nextSpace + 1 }) :
    Tracked s s' where
  kept := by
    rw [hb]
    exact h.born hx
  ends := by rw [show s'.ends = s.ends from congrArg Books.ends hb]
  goes a y hy _ := by
    have hne : a ≠ s.nextSpace := by
      rintro rfl
      exact some_ne_none y (hy.symm.trans (h.fresh _ le_rfl).1)
    exact .inl ⟨y, by rw [hb, ← hy]; exact update_of_ne hne _ _, rfl, rfl⟩

/-- A space that is given up before its process starts. -/
theorem Tracked.abandon (h : s.books.Kept) {sp : Space} (hx : sp.entry.reported = false)
    (hu : u.books = (s.addSpace sp).books) : Tracked s (u.vmmDestroy s.nextSpace) := by
  have hborn := Tracked.born h hx (addSpace_books s sp)
  have hends : u.ends = s.ends := congrArg Books.ends hu
  refine ⟨?_, by rw [show (u.vmmDestroy s.nextSpace).ends = s.ends from hends],
    fun a y hy hpid => ?_⟩
  · rw [vmmDestroy_books, hu]
    exact hborn.kept.gone _
  rcases hborn.goes a y hy hpid with ⟨y', hy', hsame⟩ | hmem
  · have hne : a ≠ s.nextSpace := by
      rintro rfl
      exact some_ne_none y (hy.symm.trans (h.fresh _ le_rfl).1)
    refine .inl ⟨y', ?_, hsame⟩
    rw [vmmDestroy_books, hu, ← hy']
    exact update_of_ne hne _ _
  · refine .inr ?_
    rw [Books.ended, vmmDestroy_books, hu]
    exact hmem

/-- A space whose first thread is registered. -/
theorem Tracked.start (h : s.books.Kept) {sp : Space} (hmark : sp.exitReported = false)
    (hu : u.books = (s.addSpace sp).books) (x : Sched) (pid ppid : ℕ) :
    Tracked s
      (System.modifySpace { u with sched := x } s.nextSpace fun sp => { sp with pid, ppid }) := by
  have hbooks := hu.trans (addSpace_books s sp)
  have hentry : u.books.spaces s.nextSpace = some sp.entry :=
    (congrFun (congrArg Books.spaces hbooks) s.nextSpace).trans (update_self ..)
  obtain ⟨sp', hsp', hsame⟩ := map_eq_some_iff.mp hentry
  have hmark' : sp'.exitReported = false := (congrArg Entry.reported hsame).trans hmark
  have hset := setSpace_books (s := { u with sched := x })
    (f := fun sp => { sp with pid, ppid }) hsp'
  refine .born h (x := ⟨pid, ppid, sp'.exitReported⟩) hmark' (hset.trans ?_)
  rw [show ({ u with sched := x } : System).books = _ from hbooks]
  dsimp only
  rw [update_idem]
  rfl

theorem appSpawn_tracked (h : s.books.Kept) (sid : ℕ) (create map memory : Bool) :
    Tracked s (appSpawn s sid create map memory) := by
  rw [appSpawn]
  split
  · exact .of_books h rfl
  dsimp only
  split
  · exact .abandon h rfl rfl
  split
  · exact .abandon h rfl rfl
  · rename_i x t _
    exact .start h rfl rfl x t.pid 0

theorem sysClone_tracked (h : s.books.Kept) (prio : ℕ) (accepted memory : Bool) :
    Tracked s (sysClone s prio accepted memory) := by
  rw [sysClone]
  split
  · exact .of_books h rfl
  split
  · exact .of_books h rfl
  split
  · exact .of_books h rfl
  · exact .of_books h (modifySpace_books (fun _ => by rfl) _ _)

theorem sysFork_tracked (h : s.books.Kept) (r : ForkAnswers) : Tracked s (sysFork s r) := by
  rw [sysFork]
  split
  · exact .of_books h rfl
  rename_i parent _
  split
  · exact .of_books h rfl
  dsimp only
  split
  · exact .abandon h rfl rfl
  split
  · exact .abandon h rfl rfl
  rename_i u hu
  have hbooks : u.books = (s.addSpace (.created parent.sid)).books :=
    (cloneSig_acts (R := Silent) hu).books_of fun h => h.elim
  split
  · exact .abandon h rfl hbooks
  · rename_i x t _
    exact .start h rfl hbooks x t.pid parent.pid

theorem reapSlot_tracked (h : s.books.Kept) (i : ℕ) : Tracked s (reapSlot s i) := by
  rw [reapSlot]
  split
  · exact .of_books h rfl
  rename_i t _
  split
  · exact .of_books h rfl
  split
  · exact .of_books h rfl
  rename_i a _
  have hacts := appReaped_acts s t a
  have hreaped := hacts.tracked h
  dsimp only
  split
  · exact hreaped.trans (.of_books hreaped.kept (modifySpace_books (fun _ => by rfl) _ _))
  rename_i hlast
  have hbooks := vmmDestroy_books ((appReaped s t a).clearSlot i) a
  refine ⟨by rw [hbooks]; exact hreaped.kept.gone a, hreaped.ends, fun b x hx hpid => ?_⟩
  by_cases hba : b = a
  · -- the last thread is gone, so the end was reported
    subst hba
    obtain ⟨sp, hsp, rfl⟩ := map_eq_some_iff.mp hx
    have hrefs : ((appReaped s t b).spaces b).map Space.refs = some sp.refs := by
      have hledger := congrFun (congrArg Holders.Ledger.refs hacts.ledger) b
      exact hledger.trans (congrArg (Option.map Space.refs) hsp)
    obtain ⟨sp', hsp', hsame⟩ := map_eq_some_iff.mp hrefs
    have hone : sp.refs ≤ 1 := by
      rw [← hsame]
      simpa [System.clearSlot, hsp'] using hlast
    refine .inr ?_
    rw [Books.ended, hbooks]
    have hany : (s.spaces b).any (·.refs ≤ 1) = true := by
      rw [hsp]
      exact decide_eq_true hone
    show b ∈ (appReaped s t b).books.ended
    rw [appReaped, if_pos hany]
    exact vlsReportExit_ended h hx hpid _ _
  · rcases hreaped.goes b x hx hpid with ⟨y, hy, hsame⟩ | hmem
    · exact .inl ⟨y, by rw [hbooks, ← hy]; exact update_of_ne hba _ _, hsame⟩
    · exact .inr (by rw [Books.ended, hbooks]; exact hmem)

theorem schedReap_tracked (h : s.books.Kept) : Tracked s (schedReap s) := by
  unfold schedReap
  generalize range schedMaxThreads = slots
  induction slots generalizing s with
  | nil => exact .of_books h rfl
  | cons i slots ih =>
    have hslot := reapSlot_tracked h i
    exact hslot.trans (ih hslot.kept)

/-! ## Every step -/

/-- The process is still there, or goes on in a new space without having reported its end, or has
reported it. -/
def GoesOn (s s' : System) (a : ℕ) (x : Entry) : Prop :=
  (∃ n y, s'.books.spaces n = some y ∧ y.pid = x.pid ∧ y.ppid = x.ppid ∧
    (n = a ∨ s.books.spaces n = none ∧ a ∉ s'.books.ended)) ∨ a ∈ s'.books.ended

def Op.execs : Op → Bool
  | .execve _ _ _ _ => true
  | _ => false

theorem Tracked.goesOn (h : Tracked s s') : s'.books.Kept ∧
    ∀ a x, s.books.spaces a = some x → x.pid ≠ 0 → GoesOn s s' a x := by
  refine ⟨h.kept, fun a x hx hpid => ?_⟩
  exact (h.goes a x hx hpid).imp_left fun ⟨y, hy, hp, hpp⟩ => ⟨a, y, hy, hp, hpp, .inl rfl⟩

theorem step_tracked (h : s.books.Kept) {op : Op} (hop : op.execs = false) :
    Tracked s (step s op) := by
  cases op with
  | sched e => exact .of_books h rfl
  | appSpawn sid create map memory => exact appSpawn_tracked h sid create map memory
  | clone prio accepted memory => exact sysClone_tracked h prio accepted memory
  | fork r => exact sysFork_tracked h r
  | execve => cases hop
  | exit code => exact (sysExit_acts s code).tracked h
  | threadExit code => exact (sysThreadExit_acts s code).tracked h
  | exitGroup code => exact (sysExitGroup_acts s code).tracked h
  | kill pid sig => exact (lKill_acts s pid sig).tracked h
  | tkill tid sig => exact (lTkill_acts s tid sig).tracked h
  | tgkill tgid tid sig => exact (lTkill_acts s tid sig).tracked h
  | sigaction sig act => exact (lRtSigaction_acts s sig act).tracked h
  | sigprocmask how set => exact (lRtSigprocmask_acts s how set).tracked h
  | deliver tramp m f ret => exact (deliverSignals_acts s tramp m f ret).tracked h
  | fault tramp m r tried => exact (userFault_acts s tramp m r tried).tracked h
  | wait4 pid status nohang rusage =>
    exact .of_books h ((vlsWait4_acts s pid status nohang rusage).books_of Collect.books)
  | wait4Resume writable => exact .of_books h ((wait4Resume_acts s writable).books_of Collect.books)
  | reap => exact schedReap_tracked h
  | heap room => exact .of_books h rfl

/-- A process that has not reported its end takes its numbers to the new space. -/
theorem sysExecve_goesOn (h : s.books.Kept)
    (hnew : ∀ sp ∈ s.vmmCurrent.bind s.spaces, sp.exitReported = false) (sid : ℕ)
    (accepted create map : Bool) : (sysExecve s sid accepted create map).books.Kept ∧
      ∀ a x, s.books.spaces a = some x → x.pid ≠ 0 →
        GoesOn s (sysExecve s sid accepted create map) a x := by
  rw [sysExecve]
  split
  · exact (Tracked.of_books h rfl).goesOn
  rename_i c hcur
  split
  · exact (Tracked.of_books h rfl).goesOn
  rename_i old hold
  have hmark : old.exitReported = false := hnew old (by rw [hcur]; exact hold)
  split_ifs
  · exact (Tracked.of_books h rfl).goesOn
  · exact (Tracked.of_books h rfl).goesOn
  · exact (Tracked.of_books h rfl).goesOn
  · exact (Tracked.abandon (u := s.addSpace (.created sid)) h rfl rfl).goesOn
  dsimp only
  set sp : Space := { Space.created sid with
    pid := old.pid
    ppid := old.ppid
    sig := old.sig.map vlsSigResetForExec }
  have hborn : Tracked s (s.addSpace sp) := .born h rfl (addSpace_books s sp)
  set u : System := { s.addSpace sp with
    sched := (s.addSpace sp).sched.modifyCur fun t => { t with as := some s.nextSpace } }
  have hbooks : (u.vmmDestroy c).books = { (s.addSpace sp).books with
      spaces := update (s.addSpace sp).books.spaces c none } := vmmDestroy_books u c
  refine ⟨by rw [hbooks]; exact hborn.kept.gone c, fun a x hx hpid => ?_⟩
  have hfresh := (h.fresh s.nextSpace le_rfl).1
  have hspaces : (s.addSpace sp).books.spaces = update s.books.spaces s.nextSpace (some sp.entry) :=
    congrArg Books.spaces (addSpace_books s sp)
  by_cases hac : a = c
  · subst hac
    have hx' : x = old.entry := by
      refine some.inj (hx.symm.trans ?_)
      exact congrArg (Option.map Space.entry) hold
    have hne : s.nextSpace ≠ a := fun heq => some_ne_none x (hx.symm.trans (heq ▸ hfresh))
    refine .inl ⟨s.nextSpace, sp.entry, ?_, by rw [hx']; rfl, by rw [hx']; rfl, .inr ⟨hfresh, ?_⟩⟩
    · rw [hbooks]
      dsimp only
      rw [update_of_ne hne, hspaces, update_self]
    · have hnot := (h.marked a x hx).not.mp (by rw [hx']; exact Bool.not_eq_true _ ▸ hmark)
      rw [Books.ended, hbooks]
      exact hnot
  · rcases hborn.goes a x hx hpid with ⟨y, hy, hp, hpp⟩ | hmem
    · refine .inl ⟨a, y, ?_, hp, hpp, .inl rfl⟩
      rw [hbooks, ← hy]
      exact update_of_ne hac _ _
    · refine .inr ?_
      rw [Books.ended, hbooks]
      exact hmem

end Vextro.Processes
