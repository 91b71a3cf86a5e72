import Vextro.Verification.Processes.Endings
import Vextro.Verification.Shared.Mailboxes

/-! What becomes of the exits a parent is told of.

The child table of a signal block is a box with sixteen slots: an exit is put into it, and
`wait4` takes it out. -/

namespace Vextro.Processes

open Threads Signals Mailboxes List Function Option

variable {R : Change} {s s' : System} {k a : ℕ} {g : Sig} {want : Int} {op : Op}

def System.post (s : System) : Post Child where
  box a := (s.sigOf a).map fun g => (g.addr, g.child)
  next := s.nextBlock
  posted := s.exits
  taken := s.collected

/-- No block has more than sixteen exits that were not collected. -/
def Within (s : System) : Prop :=
  ∀ b, (about b s.exits).length ≤ (about b s.collected).length + vlsMaxChildren

/-- The boxes take steps, and no exit is lost. -/
def Faithful (s s' : System) : Prop :=
  Relation.ReflTransGen (Post.Step vlsMaxChildren) s.post s'.post ∧ s'.lost = s.lost

/-- What a function that may report exits does, if the heap has room for `k` more blocks. -/
structure Reports (k : ℕ) (s s' : System) : Prop where
  exits : s.exits <+: s'.exits
  collected : s'.collected = s.collected
  room : s.room ≤ s'.room + k
  faithful : k ≤ s.room → Within s' → s.post.Sound vlsMaxChildren → Faithful s s'

theorem Faithful.refl (s : System) : Faithful s s := ⟨.refl, rfl⟩

theorem Faithful.of_eq (hpost : s'.post = s.post) (hlost : s'.lost = s.lost) : Faithful s s' := by
  rw [Faithful, hpost]
  exact ⟨.refl, hlost⟩

theorem Faithful.one {p : Post Child} (h : Post.Step vlsMaxChildren s.post p) (hp : s'.post = p)
    (hlost : s'.lost = s.lost) : Faithful s s' := by
  rw [Faithful, hp]
  exact ⟨.single h, hlost⟩

theorem Faithful.trans {s'' : System} (h : Faithful s s') (h' : Faithful s' s'') : Faithful s s'' :=
  ⟨h.1.trans h'.1, h'.2.trans h.2⟩

theorem Within.before (h : Reports k s s') (hw : Within s') : Within s := by
  intro b
  obtain ⟨new, hnew⟩ := h.exits
  have hb := hw b
  rw [← hnew, h.collected, about_append, length_append] at hb
  omega

theorem Reports.of_eq (hpost : s'.post = s.post) (hroom : s'.room = s.room)
    (hlost : s'.lost = s.lost) :
    Reports 0 s s' where
  exits := by
    have : s'.exits = s.exits := congrArg Post.posted hpost
    rw [this]
  collected := congrArg Post.taken hpost
  room := by omega
  faithful _ _ _ := .of_eq hpost hlost

theorem Reports.refl (s : System) : Reports 0 s s := .of_eq rfl rfl rfl

theorem Reports.trans {l : ℕ} {s'' : System} (h : Reports k s s') (h' : Reports l s' s'') :
    Reports (k + l) s s'' where
  exits := h.exits.trans h'.exits
  collected := h'.collected.trans h.collected
  room := by
    have := h.room
    have := h'.room
    omega
  faithful hroom hw hsound := by
    have hroom' := h.room
    have hfirst := h.faithful (by omega) (hw.before h') hsound
    exact hfirst.trans (h'.faithful (by omega) hw (hsound.steps hfirst.1))

theorem Reports.mono {l : ℕ} (hkl : k ≤ l) (h : Reports k s s') : Reports l s s' where
  exits := h.exits
  collected := h.collected
  room := by
    have := h.room
    omega
  faithful hroom := h.faithful (by omega)

theorem Reports.same (k : ℕ) (s : System) : Reports k s s := (Reports.refl s).mono (Nat.zero_le k)

/-! ## Functions that tell nobody anything -/

theorem post_congr (hsig : ∀ a, s'.sigOf a = s.sigOf a) (hnext : s'.nextBlock = s.nextBlock)
    (hexits : s'.exits = s.exits) (hcollected : s'.collected = s.collected) : s'.post = s.post := by
  simp only [System.post, hsig, hnext, hexits, hcollected]

theorem sched_reports (s : System) (x : Sched) :
    Reports 0 s { s with sched := x } := .of_eq rfl rfl rfl

theorem modifySpace_reports {f : Space → Space} (hf : ∀ sp, (f sp).sig = sp.sig) (s : System)
    (a : ℕ) : Reports 0 s (s.modifySpace a f) := by
  exact .of_eq (post_congr (modifySpace_sigOf hf s a) rfl rfl rfl) rfl rfl

theorem modifySig_reports {f : Sig → Sig}
    (hf : ∀ g, s.sigOf a = some g → (f g).addr = g.addr ∧ (f g).child = g.child) :
    Reports 0 s (s.modifySig a f) := by
  refine .of_eq ?_ rfl rfl
  have hbox : ∀ b, ((s.modifySig a f).sigOf b).map (fun g => (g.addr, g.child)) =
      (s.sigOf b).map fun g => (g.addr, g.child) := by
    intro b
    rw [modifySig_sigOf]
    split
    · rename_i hb
      subst hb
      cases hg : s.sigOf b with
      | none => rfl
      | some g => simp [hf g hg]
    · rfl
  simp only [System.post]
  congr 1
  exact funext hbox

theorem vlsSigOf_faithful (h : vlsSigOf s a = some s') : Faithful s s' := by
  rcases vlsSigOf_cases h with ⟨rfl, -⟩ | ⟨sp, hsp, hnone, hroom, rfl⟩
  · exact .refl s'
  have hbox : s.post.box a = none := by
    simp [System.post, System.sigOf, hsp, hnone]
  refine .one (.create s.post a hbox) ?_ rfl
  simp only [System.post]
  congr 1
  funext b
  rw [vlsSigOf_sigOf h]
  by_cases hb : b = a
  · subst hb
    simp [System.sigOf, hsp, hnone, Sig.fresh]
  · simp [hb]

theorem vlsSigOf_reports (h : vlsSigOf s a = some s') : Reports 1 s s' := by
  have hfaithful := vlsSigOf_faithful h
  rcases vlsSigOf_cases h with ⟨rfl, -⟩ | ⟨sp, hsp, hnone, hroom, rfl⟩
  · exact .same _ s'
  · exact ⟨prefix_rfl, rfl, by dsimp only; omega, fun _ _ _ => hfaithful⟩

/-! ## An exit is recorded -/

theorem recordChild_free {i : ℕ} (c : Child) (hi : i < vlsMaxChildren) (hfree : g.child i = none) :
    ∃ j < vlsMaxChildren, g.child j = none ∧
      recordChild c g = { g with child := update g.child j (some c) } := by
  cases hfind : (range vlsMaxChildren).find? fun j => (g.child j).isNone with
  | none =>
    have := find?_eq_none.mp hfind i (mem_range.mpr hi)
    simp [hfree] at this
  | some j =>
    refine ⟨j, mem_range.mp (mem_of_find?_eq_some hfind), ?_, ?_⟩
    · simpa using find?_some hfind
    · simp only [recordChild, hfind]

/-- An exit is recorded in the parent's block, as long as it is one of at most sixteen. -/
theorem record_reports {parent : ℕ} (hg : s.sigOf parent = some g) (c : Child) :
    Reports 0 s { s.modifySig parent (recordChild c) with
      exits := s.exits ++ (s.sigOf parent).toList.map fun g => (g.addr, c) } := by
  refine ⟨prefix_append _ _, rfl, le_rfl, fun _ hw hsound => ?_⟩
  have hbox : s.post.box parent = some (g.addr, g.child) := by
    simp [System.post, hg]
  -- the exit is one of at most sixteen, so fewer than sixteen records are in use
  have hlength : (contents vlsMaxChildren g.child).length < vlsMaxChildren := by
    have hbalance := (hsound.balance parent _ hbox).length_eq
    have hafter := hw g.addr
    simp only [hg, toList_some, map_cons, map_nil, about_append, about_self,
      length_append, length_singleton] at hafter
    simp only [System.post, length_append] at hbalance
    have : (s.modifySig parent (recordChild c)).collected = s.collected := rfl
    rw [this] at hafter
    omega
  obtain ⟨i, hi, hfree⟩ := exists_free hlength
  obtain ⟨j, hj, hjfree, hrecord⟩ := recordChild_free c hi hfree
  refine .one (.put s.post parent g.addr j g.child c hbox hj hjfree) ?_ rfl
  simp only [System.post, hg]
  congr 1
  funext b
  have hsig := modifySig_sigOf s parent b (recordChild c)
  by_cases hb : b = parent
  · subst hb
    rw [hg] at hsig
    refine (congrArg (Option.map fun g => (g.addr, g.child)) hsig).trans ?_
    simp [hrecord]
  · rw [if_neg hb] at hsig
    rw [update_of_ne hb]
    exact congrArg (Option.map fun g => (g.addr, g.child)) hsig

/-! ## The other calls -/

theorem discard_reports (hsig : ∀ b, s'.sigOf b = if b = a then none else s.sigOf b)
    (hnext : s'.nextBlock = s.nextBlock) (hexits : s'.exits = s.exits)
    (hcollected : s'.collected = s.collected) (hroom : s'.room = s.room)
    (hlost : s'.lost = s.lost) : Reports 0 s s' where
  exits := by rw [hexits]
  collected := hcollected
  room := by omega
  faithful _ _ _ := by
    refine .one (.discard s.post a) ?_ hlost
    simp only [System.post, hsig, hnext, hexits, hcollected]
    congr 1
    funext b
    by_cases hb : b = a
    · simp [hb]
    · simp [hb]

theorem dropSig_reports (s : System) (a : ℕ) :
    Reports 0 s (s.modifySpace a fun sp => { sp with sig := none }) := by
  refine discard_reports (a := a) (fun b => ?_) rfl rfl rfl rfl rfl
  by_cases hb : b = a
  · cases hs : s.spaces a <;> simp [System.sigOf, System.modifySpace, hb]
  · simp [System.sigOf, System.modifySpace, hb]

theorem Acts.reports_of (hR : ∀ {k : ℕ} {s s' : System}, R k s s' → Reports k s s')
    (h : Acts R k s s') : Reports k s s' := by
  induction h with
  | same k s => exact .same k s
  | after _ hact hn ih =>
    refine (ih.trans ?_).mono hn
    cases hact with
    | sched => exact sched_reports _ _
    | sig hf => exact modifySig_reports hf
    | block h => exact vlsSigOf_reports h
    | other h => exact hR h

theorem Tell.reports (h : Tell k s s') : Reports k s s' := by
  cases h with
  | record hg c => exact record_reports hg c
  | lose _ c h => exact ⟨prefix_rfl, rfl, by dsimp only; omega, fun hroom => by omega⟩

theorem Report.reports (h : Report k s s') : Reports k s s' := by
  cases h with
  | drop => exact dropSig_reports _ _
  | report _ a exitCode killed =>
    rw [vlsReportExit]
    split
    · exact .same 2 s
    rename_i sp _
    split
    · exact .same 2 s
    have hmark : Reports 0 s (s.modifySpace a fun sp => { sp with exitReported := true }) :=
      modifySpace_reports (fun _ => by rfl) s a
    have htold := hmark.trans
      ((vlsChildExited_acts _ sp.pid sp.ppid exitCode killed).reports_of Tell.reports)
    exact ⟨htold.exits, htold.collected, htold.room, htold.faithful⟩

theorem Acts.reports (h : Acts Report k s s') : Reports k s s' := h.reports_of Report.reports

/-- A record that a wait for `want` may collect. -/
def Uncollected (g : Sig) (want : Int) : Prop :=
  ∃ i < vlsMaxChildren, (g.child i).any fun c => !(0 < want ∧ (c.pid : Int) ≠ want % 2 ^ 32)

instance (g : Sig) (want : Int) : Decidable (Uncollected g want) :=
  inferInstanceAs (Decidable (∃ i < vlsMaxChildren, _))

theorem matchingChild_some {i : ℕ} {c : Child} (h : matchingChild g want = some (i, c)) :
    i < vlsMaxChildren ∧ g.child i = some c ∧ Uncollected g want := by
  obtain ⟨j, hj, hmatch⟩ := exists_of_findSome?_eq_some h
  obtain ⟨c', hc', hsome⟩ := bind_eq_some_iff.mp hmatch
  split at hsome
  · cases hsome
  rename_i hok
  simp only [some.injEq, Prod.mk.injEq] at hsome
  obtain ⟨rfl, rfl⟩ := hsome
  have hj := mem_range.mp hj
  refine ⟨hj, hc', j, hj, ?_⟩
  rw [hc', any_some, decide_eq_false hok]
  rfl

theorem matchingChild_none (h : matchingChild g want = none) : ¬ Uncollected g want := by
  rintro ⟨i, hi, hc⟩
  have hnone := findSome?_eq_none_iff.mp h i (mem_range.mpr hi)
  cases hchild : g.child i with
  | none =>
    rw [hchild] at hc
    cases hc
  | some c =>
    rw [hchild, any_some, Bool.not_eq_true', decide_eq_false_iff_not] at hc
    rw [hchild, bind_some, if_neg hc] at hnone
    cases hnone

theorem fresh_collected (b : ℕ) (want : Int) : ¬ Uncollected (.fresh b) want := by
  rintro ⟨i, -, hc⟩
  cases hc

theorem wait4Round_error {me : ℕ} {status : Option Bool} {nohang : Bool}
    (h : status = some false → ∀ g, s.sigOf a = some g → ¬ Uncollected g want) {v : Int}
    (hv : (wait4Round s a me want status nohang).2 = some v) (hneg : v < 0) :
    (wait4Round s a me want status nohang).1 = s ∧ v = -echild ∧ vlsHasLiveChild s me = false ∧
      ∀ g, s.sigOf a = some g → ¬ Uncollected g want := by
  rw [wait4Round] at hv ⊢
  split
  · rename_i hg
    simp only [hg] at hv
    cases hv
  rename_i g hg
  simp only [hg] at hv
  split
  · rename_i i c hmatch
    simp only [hmatch] at hv
    obtain ⟨-, -, hun⟩ := matchingChild_some hmatch
    split at hv
    · rename_i hstatus
      exact absurd hun (h hstatus g hg)
    · cases hv
      omega
  rename_i hmatch
  simp only [hmatch] at hv
  split
  · rename_i hlive
    rw [if_pos hlive] at hv
    refine ⟨rfl, (some.inj hv).symm, by simpa using hlive, fun g' hg' => ?_⟩
    obtain rfl := some.inj (hg.symm.trans hg')
    exact matchingChild_none hmatch
  rename_i hlive
  rw [if_neg hlive] at hv
  split at hv
  · cases hv
    omega
  · cases hv

/-! ## Histories -/

/-- What a call of `wait4`, new or resumed, asks for: the children, and whether a status is wanted
and can be written. -/
def request (s : System) : Op → Option (Int × Option Bool)
  | .wait4 pid status _ _ => some (pid, status)
  | .wait4Resume writable => (s.sched.cur.bind s.waits).map fun w =>
    (w.want, if w.status then some writable else none)
  | _ => none

/-- What the call returns, if it does. -/
def answer (s : System) : Op → Option Int
  | .wait4 pid status nohang rusage => (vlsWait4 s pid status nohang rusage).2
  | .wait4Resume writable => (wait4Resume s writable).2
  | _ => none

/-- How many signal blocks a step may need. -/
def Op.blocks : Op → ℕ
  | .reap => 2 * schedMaxThreads
  | .kill _ _ | .tkill _ _ | .tgkill _ _ _ => 4
  | .exit _ | .threadExit _ | .exitGroup _ | .deliver _ _ _ _ => 2
  | .fork _ | .sigaction _ _ | .sigprocmask _ _ => 1
  | _ => 0

/-- The step finds memory for the signal blocks it needs; a wait is made by a process that has a
number, and if its status cannot be written, then there is none for it; and no process replaces
its program once it has reported its end. -/
def Served (s : System) (op : Op) : Prop := op.blocks ≤ s.room ∧ (∀ r ∈ request s op,
    ((s.vmmCurrent.bind s.spaces).any fun sp => sp.live && sp.pid ≠ 0) ∧
      (r.2 = some false → ∀ g ∈ s.vmmCurrent.bind s.sigOf, ¬ Uncollected g r.1)) ∧
    ∀ sp ∈ s.vmmCurrent.bind s.spaces, op.execs = true → sp.exitReported = false

instance (s : System) (op : Op) : Decidable (Served s op) :=
  inferInstanceAs (Decidable (_ ∧ _ ∧ _))

theorem vmmCurrent_keeps (h : Keeps s.sched s'.sched) : s'.vmmCurrent = s.vmmCurrent := by
  have hident : ∀ s : System,
      s.vmmCurrent = s.sched.cur.bind fun i => (s.sched.ident i).bind Prod.fst := by
    intro s
    rw [System.vmmCurrent]
    cases s.sched.cur with
    | none => rfl
    | some i =>
      rw [bind_some, bind_some, Sched.ident]
      cases s.sched.threads i <;> rfl
  rw [hident, hident, h.1]
  simp only [h.2]

/-- A call that was served has either been refused at once, or gone round the loop once. -/
theorem Served.round {r : Int × Option Bool} (h : Served s op) (hr : request s op = some r) :
    (step s op = s ∧ ∃ v, answer s op = some v ∧ v ≠ -echild) ∨
      ∃ a sp u nohang, s.vmmCurrent = some a ∧ s.spaces a = some sp ∧ sp.pid ≠ 0 ∧ Faithful s u ∧
        (∀ b g, s.sigOf b = some g → u.sigOf b = some g) ∧
        (r.2 = some false → ∀ g, u.sigOf a = some g → ¬ Uncollected g r.1) ∧
        step s op = (wait4Round u a sp.pid r.1 r.2 nohang).1 ∧
        answer s op = (wait4Round u a sp.pid r.1 r.2 nohang).2 := by
  obtain ⟨hcaller, hstatus⟩ := h.2.1 r hr
  obtain ⟨a, sp, ha, hsp, hlive, hpid⟩ : ∃ a sp, s.vmmCurrent = some a ∧ s.spaces a = some sp ∧
      sp.live = true ∧ sp.pid ≠ 0 := by
    cases ha : s.vmmCurrent with
    | none => simp [ha] at hcaller
    | some a =>
      cases hsp : s.spaces a with
      | none => simp [ha, hsp] at hcaller
      | some sp =>
        simp only [ha, hsp, bind_some, any_some, Bool.and_eq_true, decide_eq_true_eq] at hcaller
        exact ⟨a, sp, rfl, hsp, hcaller⟩
  simp only [ha, mem_def] at hstatus
  cases op with
  | wait4 pid status nohang rusage =>
    cases hr
    have hrefused : ¬ (sp.live = false ∨ sp.pid = 0) := by simp [hlive, hpid]
    simp only [step, answer, vlsWait4, ha, hsp, if_neg hrefused]
    split
    · exact .inl ⟨rfl, _, rfl, by decide⟩
    split
    · exact .inl ⟨rfl, _, rfl, by decide⟩
    rename_i u hu
    refine .inr ⟨a, sp, u, nohang, rfl, hsp, hpid, vlsSigOf_faithful hu, fun b g hg => ?_,
      fun hno g hg => ?_, rfl, rfl⟩
    · rw [vlsSigOf_sigOf hu]
      split
      · rename_i hb
        subst hb
        rw [hg]
        rfl
      · exact hg
    · rw [vlsSigOf_sigOf hu, if_pos rfl] at hg
      cases hg
      cases hold : s.sigOf a with
      | none => exact fresh_collected _ _
      | some g => exact hstatus hno g hold
  | wait4Resume writable =>
    obtain ⟨w, hw, rfl⟩ := map_eq_some_iff.mp hr
    let u := { s with
      sched := schedBlockOnReturn s.sched
      waits := fun i => if s.sched.cur = some i then none else s.waits i }
    have hcur : u.vmmCurrent = some a := by
      rw [← ha]
      exact vmmCurrent_keeps (schedBlockOnReturn_keeps s.sched)
    have hround : wait4Resume s writable =
        wait4Round u a sp.pid w.want (if w.status then some writable else none) false := by
      simp only [wait4Resume, hw]
      rw [show System.vmmCurrent _ = some a from hcur]
      simp only [hsp, map_some]
      rfl
    exact .inr ⟨a, sp, u, false, ha, hsp, hpid, .of_eq rfl rfl, fun b g hg => hg, hstatus,
      congrArg Prod.fst hround, congrArg Prod.snd hround⟩
  | _ => cases hr

theorem answer_none (h : request s op = none) : answer s op = none := by
  cases op with
  | wait4 => cases h
  | wait4Resume writable =>
    have hw : s.sched.cur.bind s.waits = none := map_eq_none_iff.mp h
    rw [answer, wait4Resume, hw]
  | _ => rfl

theorem Served.error (h : Served s op) {v : Int} (hv : answer s op = some v) (hneg : v < 0) (b : ℕ)
    (g : Sig) (hg : s.sigOf b = some g) : (step s op).sigOf b = some g := by
  cases hr : request s op with
  | none =>
    simp [answer_none hr] at hv
  | some r =>
    rcases h.round hr with ⟨hsame, -⟩ | ⟨a, sp, u, nohang, -, -, -, -, hkept, hstatus, hstep, hans⟩
    · rw [hsame, hg]
    · rw [hstep, (wait4Round_error hstatus (hans.symm.trans hv) hneg).1]
      exact hkept b g hg

instance (s : System) : Decidable (Within s) := decidable_of_iff
    (∀ x ∈ s.exits, (about x.1 s.exits).length ≤ (about x.1 s.collected).length + vlsMaxChildren)
    ⟨fun h b => by
      by_cases hb : ∃ x ∈ s.exits, x.1 = b
      · obtain ⟨x, hx, rfl⟩ := hb
        exact h x hx
      have hnone : about b s.exits = [] := by
        refine filterMap_eq_nil_iff.mpr fun x hx => ?_
        rw [if_neg fun hxb => hb ⟨x, hx, hxb⟩]
      rw [hnone]
      exact Nat.zero_le _, fun h x _ => h x.1⟩

theorem Served.goesOn (h : Served s op) (hs : s.books.Kept) : (step s op).books.Kept ∧
    ∀ a x, s.books.spaces a = some x → x.pid ≠ 0 → GoesOn s (step s op) a x := by
  cases hop : op.execs with
  | false => exact (step_tracked hs hop).goesOn
  | true =>
    cases op with
    | execve sid accepted create map =>
      exact sysExecve_goesOn hs (fun sp hsp => h.2.2 sp hsp rfl) sid accepted create map
    | _ => cases hop

theorem Booted.kept (hboot : s.Booted) (hexits : s.exits = []) (hends : s.ends = []) :
    s.books.Kept := by
  have hnone : ∀ a, s.books.spaces a = none :=
    fun a => congrArg (Option.map Space.entry) (hboot.spaces a)
  have hended : s.books.ended = [] := congrArg (List.map Ending.space) hends
  have hempty : s.books.ends = [] := hends
  refine ⟨by rw [hended]; exact nodup_nil, fun a x hx => ?_, fun e he => ?_, fun a _ => ?_, ?_,
    fun _ e he => ?_⟩
  · exact absurd (hx.symm.trans (hnone a)) (some_ne_none x)
  · rw [hempty] at he
    cases he
  · exact ⟨hnone a, by rw [hended]; exact not_mem_nil⟩
  · rw [hempty]
    exact hexits
  · rw [hempty] at he
    cases he

theorem Booted.sound (hboot : s.Booted) (hexits : s.exits = []) (hcollected : s.collected = []) :
    s.post.Sound vlsMaxChildren := by
  have hbox : ∀ a, s.post.box a = none := by
    intro a
    simp [System.post, System.sigOf, hboot.spaces a]
  refine ⟨fun a _ x _ h => ?_, fun a x h => ?_, fun x hx => ?_, fun x hx => ?_, fun a x h => ?_⟩
  · simp [hbox] at h
  · simp [hbox] at h
  · rw [show s.post.posted = [] from hexits] at hx
    cases hx
  · rw [show s.post.taken = [] from hcollected] at hx
    cases hx
  · simp [hbox] at h

end Vextro.Processes
