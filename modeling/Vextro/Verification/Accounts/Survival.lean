import Mathlib.Data.List.TakeWhile
import Vextro.Model.Accounts

/-! The account table and the file it is kept in, and what is left of them when an account operation
is interrupted. -/

namespace Vextro.Accounts

open List

variable {c : Char} {n : ℕ} {u : Account} {users : List Account}

/-- A name that fits into its line. -/
structure Account.Ok (u : Account) : Prop where
  short : u.name.length ≤ 8
  plain : ∀ c ∈ u.name, c ≠ '|' ∧ c ≠ '\n' ∧ c ≠ '\x00'
  head : u.name.head? ≠ some '#'

/-- A table as it stands between two operations. -/
structure TableOk (users : List Account) : Prop where
  count : users.length ≤ userMax
  each : ∀ u ∈ users, u.Ok

/-! ## Hexadecimal -/

def hexDigit (n : ℕ) : Char := hexDigits.getD n '0'

theorem uHexval_hexDigit : ∀ n < 16, uHexval (hexDigit n) = some n := by decide

theorem hexDigit_plain :
    ∀ n < 16, hexDigit n ≠ '|' ∧ hexDigit n ≠ '\n' ∧ hexDigit n ≠ '\x00' := by decide

theorem uTohex_cons (b : UInt8) (l : List UInt8) :
    uTohex (b :: l) = hexDigit (b.toNat / 16) :: hexDigit (b.toNat % 16) :: uTohex l :=
  rfl

theorem byte_halves (b : UInt8) : b.toNat / 16 < 16 ∧ b.toNat % 16 < 16 := by
  have := b.toNat_lt
  omega

theorem length_uTohex (l : List UInt8) : (uTohex l).length = 2 * l.length := by
  induction l with
  | nil => rfl
  | cons b l ih =>
    rw [uTohex_cons, length_cons, length_cons, length_cons]
    omega

theorem uTohex_plain {l : List UInt8} (h : c ∈ uTohex l) : c ≠ '|' ∧ c ≠ '\n' ∧ c ≠ '\x00' := by
  induction l with
  | nil => cases h
  | cons b l ih =>
    obtain ⟨hhi, hlo⟩ := byte_halves b
    rw [uTohex_cons, mem_cons, mem_cons] at h
    rcases h with rfl | rfl | h
    · exact hexDigit_plain _ hhi
    · exact hexDigit_plain _ hlo
    · exact ih h

theorem uFromhex_uTohex (l : { l : List UInt8 // l.length = n }) :
    uFromhex n (uTohex l.1) = some l := by
  obtain ⟨l, rfl⟩ := l
  induction l with
  | nil => rfl
  | cons b l ih =>
    obtain ⟨hhi, hlo⟩ := byte_halves b
    have hb : UInt8.ofNat (b.toNat / 16 * 16 + b.toNat % 16) = b := by
      rw [Nat.div_add_mod', UInt8.ofNat_toNat]
    show uFromhex (l.length + 1)
      (hexDigit (b.toNat / 16) :: hexDigit (b.toNat % 16) :: uTohex l) = _
    rw [uFromhex, uHexval_hexDigit _ hhi, uHexval_hexDigit _ hlo, ih]
    exact congrArg some (Subtype.ext (congrArg (· :: l) hb))

/-! ## Lines -/

theorem takeWhile_stop {α : Type*} {p : α → Bool} {l : List α} (hl : ∀ x ∈ l, p x) {c : α}
    (hc : p c = false) (rest : List α) : (l ++ c :: rest).takeWhile p = l := by
  rw [takeWhile_append_of_pos hl, takeWhile_cons_of_neg (by simp [hc]), append_nil]

theorem dropWhile_stop {α : Type*} {p : α → Bool} {l : List α} (hl : ∀ x ∈ l, p x) {c : α}
    (hc : p c = false) (rest : List α) : (l ++ c :: rest).dropWhile p = c :: rest := by
  rw [dropWhile_append_of_pos hl, dropWhile_cons_of_neg (by simp [hc])]

theorem fields_succ {field : List Char} (h : ∀ c ∈ field, c ≠ '|') (rest : List Char) :
    fields (n + 1) (field ++ '|' :: rest) = field :: fields n rest := by
  have hl : ∀ c ∈ field, decide (c ≠ '|') = true := fun c hc => decide_eq_true (h c hc)
  rw [fields, dropWhile_stop hl (by decide), takeWhile_stop hl (by decide)]

/-- A line without its end. -/
def lineBody (u : Account) : List Char :=
  u.name ++ '|' ::
    (uTohex u.salt.1 ++ '|' :: (uTohex u.hash.1 ++ '|' :: [if u.admin then '1' else '0']))

theorem accountLine_eq (u : Account) : accountLine u = lineBody u ++ ['\n'] := by
  simp [accountLine, lineBody]

theorem length_lineBody (hu : u.Ok) : (lineBody u).length ≤ 92 := by
  have hname := hu.short
  simp only [lineBody, length_append, length_cons, length_nil, length_uTohex, u.salt.2, u.hash.2]
  omega

theorem lineBody_plain (hu : u.Ok) (h : c ∈ lineBody u) : c ≠ '\n' ∧ c ≠ '\x00' := by
  simp only [lineBody, mem_append, mem_cons, not_mem_nil, or_false] at h
  rcases h with h | rfl | h | rfl | h | rfl | rfl
  · exact (hu.plain c h).2
  · decide
  · exact (uTohex_plain h).2
  · decide
  · exact (uTohex_plain h).2
  · decide
  · cases u.admin <;> decide

theorem lineBody_head (hu : u.Ok) : lineBody u ≠ [] ∧ (lineBody u).head? ≠ some '#' := by
  have hhead := hu.head
  rw [lineBody]
  cases hn : u.name with
  | nil => exact ⟨cons_ne_nil _ _, by simp⟩
  | cons c cs =>
    rw [hn] at hhead
    exact ⟨cons_ne_nil _ _, hhead⟩

/-- A line reads back as the account it was made from. -/
theorem parseLine_lineBody (hu : u.Ok) : parseLine (lineBody u) = some u := by
  have hcut : (lineBody u).takeWhile (· ≠ '\x00') = lineBody u :=
    takeWhile_eq_self_iff.mpr fun c hc => decide_eq_true (lineBody_plain hu hc).2
  have hbar : ∀ l : List UInt8, ∀ c ∈ uTohex l, c ≠ '|' := fun _ _ hc => (uTohex_plain hc).1
  have hfields : fields 3 (lineBody u) =
      [u.name, uTohex u.salt.1, uTohex u.hash.1, [if u.admin then '1' else '0']] := by
    rw [lineBody, fields_succ fun c hc => (hu.plain c hc).1, fields_succ (hbar _),
      fields_succ (hbar _)]
    rfl
  rw [parseLine, hcut, hfields]
  simp [uFromhex_uTohex, take_of_length_le hu.short, userNameMax]

/-! ## The file -/

theorem foldl_emit {l out : List Char} (h : out.length + l.length ≤ outMax) :
    l.foldl emit out = out ++ l := by
  induction l generalizing out with
  | nil => rw [foldl_nil, append_nil]
  | cons c l ih =>
    rw [length_cons] at h
    have hout : emit out c = out ++ [c] := if_pos (by omega)
    rw [foldl_cons, hout, ih (by rw [length_append, length_singleton]; omega),
      append_assoc, singleton_append]

theorem length_accountLine (hu : u.Ok) : (accountLine u).length ≤ 93 := by
  rw [accountLine_eq, length_append]
  exact Nat.succ_le_succ (length_lineBody hu)

theorem foldl_lines {out : List Char} (hok : ∀ u ∈ users, u.Ok)
    (h : out.length + 93 * users.length ≤ outMax) :
    users.foldl (fun out u => (accountLine u).foldl emit out) out = out ++
      users.flatMap accountLine := by
  induction users generalizing out with
  | nil => rw [foldl_nil, flatMap_nil, append_nil]
  | cons u users ih =>
    have hlen := length_accountLine (hok u mem_cons_self)
    rw [length_cons] at h
    rw [foldl_cons, foldl_emit (by omega),
      ih (fun v hv => hok v (mem_cons_of_mem u hv)) (by rw [length_append]; omega),
      flatMap_cons, append_assoc]

/-- Eight lines fit into the buffer. -/
theorem usersText_eq (h : TableOk users) : usersText users = users.flatMap accountLine := by
  have hcount : users.length ≤ 8 := h.count
  rw [usersText, foldl_lines h.each, nil_append]
  simp only [length_nil, outMax, userMax]
  omega

theorem loadLines_line (hu : u.Ok) (hroom : users.length < userMax) (fuel : ℕ) (rest : List Char) :
    loadLines (fuel + 1) (accountLine u ++ rest) users = loadLines fuel rest (users ++ [u]) := by
  have htext : accountLine u ++ rest = lineBody u ++ '\n' :: rest := by
    rw [accountLine_eq, append_assoc, singleton_append]
  have hpos : ∀ c ∈ lineBody u, decide (c ≠ '\n') = true := fun c hc =>
    decide_eq_true (lineBody_plain hu hc).1
  have hne : lineBody u ++ '\n' :: rest ≠ [] := by simp
  have hlen : (lineBody u).length ≤ 159 := (length_lineBody hu).trans (by decide)
  rw [htext, loadLines, if_neg (not_or.mpr ⟨hne, hroom.not_ge⟩), takeWhile_stop hpos (by decide),
    dropWhile_stop hpos (by decide), take_of_length_le hlen]
  rw [if_neg (not_or.mpr (lineBody_head hu)), parseLine_lineBody hu]
  rfl

theorem loadLines_lines {more : List Account} (hok : ∀ u ∈ more, u.Ok)
    (hroom : users.length + more.length ≤ userMax) {fuel : ℕ} (hfuel : more.length ≤ fuel) :
    loadLines fuel (more.flatMap accountLine) users = users ++ more := by
  induction more generalizing users fuel with
  | nil =>
    rw [append_nil]
    cases fuel with
    | zero => rfl
    | succ fuel => rw [loadLines, if_pos (.inl rfl)]
  | cons u more ih =>
    rw [length_cons] at hroom hfuel
    cases fuel with
    | zero => omega
    | succ fuel =>
      rw [flatMap_cons, loadLines_line (hok u mem_cons_self) (by omega),
        ih (fun v hv => hok v (mem_cons_of_mem u hv))
          (by rw [length_append, length_singleton]; omega) (by omega),
        append_assoc, singleton_append]

theorem length_flatMap_ge (users : List Account) :
    users.length ≤ (users.flatMap accountLine).length := by
  induction users with
  | nil => exact le_rfl
  | cons u users ih =>
    rw [flatMap_cons, length_append, accountLine_eq, length_append,
      length_singleton, length_cons]
    omega

/-- What is saved is what is loaded. -/
theorem usersLoad_usersText (h : TableOk users) (tmp : Option (List Char)) :
    usersLoad ⟨some (usersText users), tmp⟩ = users := by
  rw [usersText_eq h]
  exact loadLines_lines h.each (by simpa using h.count) (length_flatMap_ge users)

/-! ## What the loader accepts -/

theorem fields_mem {s : List Char} {name : List Char} {rest : List (List Char)}
    (h : fields (n + 1) s = name :: rest) (hrest : rest ≠ []) : name = s.takeWhile (· ≠ '|') := by
  rw [fields] at h
  split at h
  · exact absurd (List.cons.inj h).2.symm hrest
  · exact (List.cons.inj h).1.symm

theorem ne_of_mem_takeWhile {l : List Char} {d : Char} (h : c ∈ l.takeWhile (· ≠ d)) : c ≠ d := by
  simpa using mem_takeWhile_imp h

/-- Whatever is read is well formed. -/
theorem parseLine_ok {line : List Char} (hnl : '\n' ∉ line) (hhead : line.head? ≠ some '#')
    (h : parseLine line = some u) : u.Ok := by
  rw [parseLine] at h
  split at h
  · rename_i name salt hash flags hfields
    obtain ⟨salt', -, h⟩ := Option.bind_eq_some_iff.mp h
    obtain ⟨hash', -, h⟩ := Option.bind_eq_some_iff.mp h
    cases h
    obtain rfl := fields_mem hfields (cons_ne_nil _ _)
    -- the name is the beginning of the line, up to a bar and a NUL
    have hnul := takeWhile_prefix (l := line) (· ≠ '\x00')
    have hbar := takeWhile_prefix (l := line.takeWhile (· ≠ '\x00')) (· ≠ '|')
    have htake := take_prefix (userNameMax - 1) ((line.takeWhile (· ≠ '\x00')).takeWhile (· ≠ '|'))
    have hfront := htake.trans (hbar.trans hnul)
    refine ⟨length_take_le _ _, fun c hc => ⟨?_, ?_, ?_⟩, ?_⟩
    · exact ne_of_mem_takeWhile (mem_of_mem_take hc)
    · rintro rfl
      exact hnl (hfront.subset hc)
    · exact ne_of_mem_takeWhile (hbar.subset (mem_of_mem_take hc))
    intro hname
    obtain ⟨t, ht⟩ := hfront
    rw [← ht, List.head?_append, hname] at hhead
    exact hhead rfl
  · cases h

theorem loadLines_ok {fuel : ℕ} {text : List Char} (h : TableOk users) :
    TableOk (loadLines fuel text users) := by
  induction fuel generalizing text users with
  | zero => exact h
  | succ fuel ih =>
    rw [loadLines]
    split
    · exact h
    rename_i hgo
    obtain ⟨-, hroom⟩ := not_or.mp hgo
    dsimp only
    split
    · exact ih h
    rename_i hline
    obtain ⟨-, hhead⟩ := not_or.mp hline
    split
    · exact ih h
    rename_i u hparse
    refine ih ⟨?_, fun v hv => ?_⟩
    · rw [length_append]
      exact Nat.lt_of_not_le hroom
    rcases mem_append.mp hv with hv | hv
    · exact h.each v hv
    obtain rfl := mem_singleton.mp hv
    refine parseLine_ok (fun hnl => ?_) hhead hparse
    exact ne_of_mem_takeWhile (mem_of_mem_take hnl) rfl

theorem usersLoad_ok (files : Files) : TableOk (usersLoad files) := by
  have hempty : TableOk [] := ⟨Nat.zero_le _, fun _ h => nomatch h⟩
  rw [usersLoad]
  split
  · exact hempty
  · exact loadLines_ok hempty

/-- Whatever the file holds, the table read from it is written and read back as it is. -/
theorem usersLoad_again (files : Files) (tmp : Option (List Char)) :
    usersLoad ⟨some (usersText (usersLoad files)), tmp⟩ = usersLoad files :=
  usersLoad_usersText (usersLoad_ok files) tmp

variable {i : ℕ} {f : Account → Account} {name : List Char} {s : Users}

/-! ## Saving -/

/-- The database is gone when the machine stops, or when the call returns. -/
def Plan.loses (p : Plan) : Prop :=
  p.tmpWrite = .done ∧ ((p.crash = .dbDelete ∧ p.dbDelete = true) ∨
      ((p.crash = .dbWrite ∨ p.crash = .tmpDelete ∨ p.crash = .never) ∧
        (p.dbWrite = .lost ∨ (p.dbWrite = .kept ∧ p.dbDelete = true))))

/-- The call returns and reports a failure. -/
def Plan.fails (p : Plan) : Prop :=
  (p.tmpWrite ≠ .done ∧ p.crash ≠ .start ∧ p.crash ≠ .mkdir ∧ p.crash ≠ .tmpWrite) ∨
    (p.tmpWrite = .done ∧ p.dbWrite ≠ .done ∧ (p.crash = .tmpDelete ∨ p.crash = .never))

def Saved.files : Saved → Files
  | .crashed files => files
  | .returned files _ => files

def Saved.failed : Saved → Prop
  | .crashed _ => False
  | .returned _ ok => ok = false

/-- What a save leaves behind. -/
structure Leaves (users : List Account) (files : Files) (p : Plan) (r : Saved) : Prop where
  lost : p.loses → r.files.db = none
  kept : ¬p.loses → r.files.db = files.db ∨ r.files.db = some (usersText users)
  failed : r.failed ↔ p.fails

/-- Where a save can stop, and what it leaves there. -/
theorem usersSave_leaves (users : List Account) (files : Files) (p : Plan) :
    Leaves users files p (usersSave users files p) := by
  rw [usersSave]
  by_cases h01 : p.crash = .start ∨ p.crash = .mkdir
  · rw [if_pos h01]
    exact ⟨by grind [Plan.loses], fun _ => .inl rfl, by grind [Plan.fails, Saved.failed]⟩
  rw [if_neg h01]
  by_cases h2 : p.crash = .tmpWrite
  · rw [if_pos h2]
    exact ⟨by grind [Plan.loses], fun _ => .inl rfl, by grind [Plan.fails, Saved.failed]⟩
  rw [if_neg h2]
  by_cases htmp : p.tmpWrite ≠ .done
  · rw [if_pos htmp]
    exact ⟨fun h => absurd h.1 htmp, fun _ => .inl rfl, by grind [Plan.fails, Saved.failed]⟩
  rw [if_neg htmp]
  by_cases h3 : p.crash = .dbDelete
  · exact ⟨by grind [Plan.loses, Saved.files], by grind [Plan.loses, Saved.files],
      by grind [Plan.fails, Saved.failed]⟩
  rw [if_neg h3]
  -- from here on the database is what the second write left
  have hlate : p.crash = .dbWrite ∨ p.crash = .tmpDelete ∨ p.crash = .never := by
    cases hc : p.crash <;> simp_all
  have hlost : p.loses →
      p.dbWrite.file (if p.dbDelete then none else files.db) (usersText users) = none := by
    grind [Plan.loses, Written.file]
  have hkept : ¬p.loses → p.dbWrite.file (if p.dbDelete then none else files.db)
      (usersText users) = files.db ∨ p.dbWrite.file (if p.dbDelete then none else files.db)
      (usersText users) = some (usersText users) := by
    cases hw : p.dbWrite <;> grind [Plan.loses, Written.file]
  by_cases h4 : p.crash = .dbWrite
  · rw [if_pos h4]
    exact ⟨hlost, hkept, by grind [Plan.fails, Saved.failed]⟩
  rw [if_neg h4]
  by_cases hdb : p.dbWrite ≠ .done
  · rw [if_pos hdb]
    exact ⟨hlost, hkept, by grind [Plan.fails, Saved.failed]⟩
  rw [if_neg hdb]
  by_cases h5 : p.crash = .tmpDelete
  · rw [if_pos h5]
    exact ⟨hlost, hkept, by grind [Plan.fails, Saved.failed]⟩
  · rw [if_neg h5]
    exact ⟨hlost, hkept, by grind [Plan.fails, Saved.failed]⟩

/-! ## Operations -/

namespace AccountOp

variable (pwHash : Salt → List Char → Digest)

/-- The checks at the top of each operation. -/
def refused (s : Users) : AccountOp → Prop
  | .add name pw _ _ => (userNameOk name).isSome = true ∨ userMax ≤ s.users.length ∨
      (userFind s name).isSome = true ∨ pw = []
  | .setPassword idx pw _ => idx < 0 ∨ (s.users.length : ℤ) ≤ idx ∨ pw = []
  | .del name => ∀ idx, userFind s name = some idx → (idx : ℤ) = s.current ∨
      ((s.users[idx]?).elim false Account.admin = true ∧ userAdminCount s ≤ 1)
  | .setAdmin name on => ∀ idx, userFind s name = some idx → on = false ∧
      (s.users[idx]?).elim false Account.admin = true ∧ userAdminCount s ≤ 1

/-- There is no account before or after the operation. -/
def vacant (s : Users) : AccountOp → Prop
  | .add .. => s.users = []
  | .del _ => s.users.length = 1
  | _ => False

/-- The account already is what the operation makes of it. -/
def idle (s : Users) : AccountOp → Prop
  | .setPassword idx pw salt =>
    ∀ u, s.users[idx.toNat]? = some u → u.salt = salt ∧ u.hash = pwHash salt pw
  | .setAdmin name on => ∀ idx u, userFind s name = some idx → s.users[idx]? = some u → u.admin = on
  | _ => False

def isAdd : AccountOp → Bool
  | .add .. => true
  | _ => false

end AccountOp

/-- How an operation goes on after its table has been saved. -/
def settle (rollback : Bool) (s s' : Users) (ret : ℤ) (plan : Plan) : Saved → Outcome
  | .crashed files => .crashed files
  | .returned files true => .returned files s' ret none
  | .returned files false => .returned files (if rollback then s else s') (-1) (some plan.fsErrstr)

/-- What an operation that passes its checks does. -/
structure Proceeds (pwHash : Salt → List Char → Digest) (op : AccountOp) (s s' : Users) : Prop where
  ok : TableOk s.users → TableOk s'.users
  vacant : (s.users = [] ∨ s'.users = []) ↔ op.vacant s
  idle : s'.users = s.users ↔ op.idle pwHash s
  run : ∃ ret, 0 ≤ ret ∧ ∀ files plan, op.run pwHash s files plan =
    settle op.isAdd s s' ret plan (usersSave s'.users files plan)

variable {pwHash : Salt → List Char → Digest}

theorem saved_settle (s s' : Users) (files : Files) (plan : Plan) :
    saved s' files plan = settle false s s' 0 plan (usersSave s'.users files plan) := by
  rw [saved]
  rcases usersSave s'.users files plan with files | ⟨files, _ | _⟩ <;> rfl

theorem modify_eq_self {l : List Account} : l.modify i f = l ↔ ∀ u, l[i]? = some u → f u = u := by
  constructor
  · intro h u hu
    have hi := congrArg (·[i]?) h
    simpa [hu] using hi
  intro h
  refine ext_getElem? fun j => ?_
  rw [getElem?_modify]
  by_cases hij : i = j
  · subst hij
    cases hu : l[i]? with
    | none => rfl
    | some u => simp [h u hu]
  · simp [hij]

theorem mem_modify {l : List Account} {u : Account} (h : u ∈ l.modify i f) :
    ∃ v ∈ l, u = v ∨ u = f v := by
  obtain ⟨j, hj⟩ := mem_iff_getElem?.mp h
  rw [getElem?_modify] at hj
  obtain ⟨v, hv, rfl⟩ := Option.map_eq_some_iff.mp hj
  refine ⟨v, mem_of_getElem? hv, ?_⟩
  by_cases hij : i = j
  · exact .inr (if_pos hij)
  · exact .inl (if_neg hij)

theorem modify_ok (h : TableOk users) (hname : ∀ u, (f u).name = u.name) :
    TableOk (users.modify i f) := by
  refine ⟨by rw [length_modify]; exact h.count, fun u hu => ?_⟩
  obtain ⟨v, hv, rfl | rfl⟩ := mem_modify hu
  · exact h.each _ hv
  obtain ⟨hs, hp, hh⟩ := h.each v hv
  rw [← hname v] at hs hp hh
  exact ⟨hs, hp, hh⟩

theorem eq_nil_or_modify (h : i < users.length) : ¬(users = [] ∨ users.modify i f = []) := by
  rintro (hnil | hnil)
  · simp [hnil] at h
  have hlen := length_modify f users i
  rw [hnil, length_nil] at hlen
  omega

theorem nameScan_none (h : nameScan i name = none) : (name ≠ [] → i + name.length ≤ 8) ∧
      ∀ c ∈ name, ('a' ≤ c ∧ c ≤ 'z') ∨ ('0' ≤ c ∧ c ≤ '9') := by
  induction name generalizing i with
  | nil => exact ⟨fun hne => absurd rfl hne, fun _ hc => nomatch hc⟩
  | cons c cs ih =>
    rw [nameScan] at h
    split at h
    · cases h
    rename_i hi
    split at h
    · cases h
    rename_i hc
    obtain ⟨hlen, hcs⟩ := ih h
    refine ⟨fun _ => ?_, fun d hd => ?_⟩
    · simp only [userNameMax] at hi
      rw [length_cons]
      cases cs with
      | nil => simp only [length_nil]; omega
      | cons e es => have := hlen (cons_ne_nil _ _); omega
    · rcases mem_cons.mp hd with rfl | hd
      · simpa only [Bool.not_eq_true, Bool.not_eq_false', Bool.or_eq_true, Bool.and_eq_true,
          decide_eq_true_eq] using hc
      · exact hcs d hd

theorem letter_or_digit {c : Char} (h : ('a' ≤ c ∧ c ≤ 'z') ∨ ('0' ≤ c ∧ c ≤ '9')) :
    c ≠ '|' ∧ c ≠ '\n' ∧ c ≠ '\x00' ∧ c ≠ '#' := by
  refine ⟨?_, ?_, ?_, ?_⟩ <;> rintro rfl <;> revert h <;> decide

theorem userNameOk_ok (h : userNameOk name = none) {u : Account}
    (hu : u.name = name.take (userNameMax - 1)) :
    u.Ok := by
  have hscan : nameScan 0 name = none := by
    cases name with
    | nil => cases h
    | cons c cs =>
      rw [userNameOk] at h
      split at h
      · cases h
      · assumption
  have hchar : ∀ c ∈ u.name, c ≠ '|' ∧ c ≠ '\n' ∧ c ≠ '\x00' ∧ c ≠ '#' := fun c hc =>
    letter_or_digit ((nameScan_none hscan).2 c (mem_of_mem_take (hu ▸ hc)))
  refine ⟨?_, fun c hc => ⟨(hchar c hc).1, (hchar c hc).2.1, (hchar c hc).2.2.1⟩, fun hhead => ?_⟩
  · rw [hu]
    exact length_take_le _ _
  · exact (hchar '#' (mem_of_head? hhead)).2.2.2 rfl

theorem add_proceeds {pw : List Char} {admin : Bool} {salt : Salt}
    (h : ¬(AccountOp.add name pw admin salt).refused s) :
    Proceeds pwHash (.add name pw admin salt) s
      { s with
        users := s.users ++ [⟨name.take (userNameMax - 1), salt, pwHash salt pw, admin⟩] } := by
  simp only [AccountOp.refused, not_or] at h
  obtain ⟨hname, hroom, hnew, hpw⟩ := h
  have hnone : userNameOk name = none := Option.not_isSome_iff_eq_none.mp hname
  refine ⟨fun hok => ⟨?_, fun u hu => ?_⟩, ?_, ?_, s.users.length, Int.natCast_nonneg _,
    fun files plan => ?_⟩
  · rw [length_append]
    exact Nat.lt_of_not_le hroom
  · rcases mem_append.mp hu with hu | hu
    · exact hok.each u hu
    · obtain rfl := mem_singleton.mp hu
      exact userNameOk_ok hnone rfl
  · simp [AccountOp.vacant]
  · simp [AccountOp.idle]
  rw [AccountOp.run, userAdd, hnone]
  dsimp only
  rw [if_neg hroom, if_neg hnew, if_neg hpw]
  rcases usersSave _ files plan with files | ⟨files, _ | _⟩ <;> rfl

theorem setPassword_proceeds
    {idx : ℤ} {pw : List Char} {salt : Salt} (h : ¬(AccountOp.setPassword idx pw salt).refused s) :
    Proceeds pwHash (.setPassword idx pw salt) s
      { s with users := s.users.modify idx.toNat fun u =>
          { u with salt := salt, hash := pwHash salt pw } } := by
  simp only [AccountOp.refused, not_or] at h
  obtain ⟨hneg, hlen, hpw⟩ := h
  refine ⟨fun hok => modify_ok hok fun _ => rfl, ?_, ?_, 0, Int.le_refl 0, fun files plan => ?_⟩
  · exact iff_of_false (eq_nil_or_modify (by omega)) id
  · rw [modify_eq_self]
    refine forall_congr' fun u => imp_congr_right fun _ => ?_
    rcases u with ⟨name, salt', hash', admin⟩
    simp [eq_comm]
  · rw [AccountOp.run, userSetPassword, if_neg (not_or.mpr ⟨hneg, hlen⟩), if_neg hpw,
      saved_settle s]
    rfl

theorem userFind_lt {idx : ℕ} (h : userFind s name = some idx) : idx < s.users.length :=
  (findIdx?_eq_some_iff_getElem.mp h).1

theorem del_proceeds (h : ¬(AccountOp.del name).refused s) :
    ∃ s', Proceeds pwHash (.del name) s s' := by
  simp only [AccountOp.refused, not_forall] at h
  obtain ⟨idx, hidx, hcheck⟩ := h
  obtain ⟨hcur, hadmin⟩ := not_or.mp hcheck
  have hlt := userFind_lt hidx
  refine ⟨⟨s.users.eraseIdx idx, if s.current > idx then s.current - 1 else s.current⟩,
    fun hok => ⟨?_, fun u hu => hok.each u (mem_of_mem_eraseIdx hu)⟩, ?_, ?_, 0, Int.le_refl 0,
    fun files plan => ?_⟩
  · rw [length_eraseIdx_of_lt hlt]
    exact (Nat.sub_le _ _).trans hok.count
  · rw [← length_eq_zero_iff, ← length_eq_zero_iff, length_eraseIdx_of_lt hlt, AccountOp.vacant]
    omega
  · refine iff_of_false (fun heq => ?_) id
    have hlen := congrArg length heq
    rw [length_eraseIdx_of_lt hlt] at hlen
    omega
  rw [AccountOp.run, userDel, hidx]
  dsimp only
  rw [if_neg hcur, if_neg (by simpa using hadmin), saved_settle s]
  rfl

theorem setAdmin_proceeds {on : Bool} (h : ¬(AccountOp.setAdmin name on).refused s) :
    ∃ s', Proceeds pwHash (.setAdmin name on) s s' := by
  simp only [AccountOp.refused, not_forall] at h
  obtain ⟨idx, hidx, hcheck⟩ := h
  refine ⟨{ s with users := s.users.modify idx fun u => { u with admin := on } },
    fun hok => modify_ok hok fun _ => rfl, iff_of_false (eq_nil_or_modify (userFind_lt hidx)) id,
    ?_, 0, Int.le_refl 0, fun files plan => ?_⟩
  · rw [modify_eq_self]
    constructor
    · intro h idx' u hidx' hu
      obtain rfl := Option.some.inj (hidx.symm.trans hidx')
      exact (congrArg Account.admin (h u hu)).symm
    · rintro h ⟨name, salt, hash, admin⟩ hu
      rw [← h idx _ hidx hu]
  · rw [AccountOp.run, userSetAdmin, hidx]
    dsimp only
    rw [if_neg (by simpa using hcheck), saved_settle s]
    rfl

/-- A refused call changes neither the table nor the files. -/
theorem refused_run {op : AccountOp} (h : op.refused s) (files : Files) (plan : Plan) :
    ∃ err, op.run pwHash s files plan = .returned files s (-1) err := by
  cases op with
  | add name pw admin salt =>
    rw [AccountOp.run, userAdd]
    cases hname : userNameOk name with
    | some err => exact ⟨_, rfl⟩
    | none =>
      simp only [AccountOp.refused, hname, Option.isSome_none, Bool.false_eq_true, false_or] at h
      by_cases hroom : userMax ≤ s.users.length
      · exact ⟨_, if_pos hroom⟩
      by_cases hnew : (userFind s name).isSome = true
      · exact ⟨_, (if_neg hroom).trans (if_pos hnew)⟩
      have hpw : pw = [] := (h.resolve_left hroom).resolve_left hnew
      exact ⟨_, (if_neg hroom).trans ((if_neg hnew).trans (if_pos hpw))⟩
  | setPassword idx pw salt =>
    by_cases hidx : idx < 0 ∨ (s.users.length : ℤ) ≤ idx
    · exact ⟨_, if_pos hidx⟩
    have hpw : pw = [] := (or_assoc.mpr h).resolve_left hidx
    exact ⟨_, (if_neg hidx).trans (if_pos hpw)⟩
  | del name =>
    rw [AccountOp.run, userDel]
    cases hfind : userFind s name with
    | none => exact ⟨_, rfl⟩
    | some idx =>
      by_cases hcur : (idx : ℤ) = s.current
      · exact ⟨_, if_pos hcur⟩
      have hadmin := (h idx hfind).resolve_left hcur
      exact ⟨_, (if_neg hcur).trans (if_pos (by simpa using hadmin))⟩
  | setAdmin name on =>
    rw [AccountOp.run, userSetAdmin]
    cases hfind : userFind s name with
    | none => exact ⟨_, rfl⟩
    | some idx => exact ⟨_, if_pos (by simpa [and_assoc] using h idx hfind)⟩

/-- An operation is refused and nothing happens, or it saves a new table. -/
theorem run_spec (pwHash : Salt → List Char → Digest) (s : Users) (op : AccountOp) :
    (op.refused s ∧ ∀ files plan, ∃ err, op.run pwHash s files plan = .returned files s (-1) err) ∨
      (¬op.refused s ∧ ∃ s', Proceeds pwHash op s s') := by
  by_cases h : op.refused s
  · exact .inl ⟨h, refused_run h⟩
  refine .inr ⟨h, ?_⟩
  cases op with
  | add name pw admin salt => exact ⟨_, add_proceeds h⟩
  | setPassword idx pw salt => exact ⟨_, setPassword_proceeds h⟩
  | del name => exact del_proceeds h
  | setAdmin name on => exact setAdmin_proceeds h

/-! ## Survival -/

/-- The table an operation leaves when nothing goes wrong. -/
def AccountOp.after (pwHash : Salt → List Char → Digest) (s : Users) (files : Files)
    (op : AccountOp) :
    List Account :=
  match op.run pwHash s files ⟨.done, true, .done, true, .never, ""⟩ with
  | .crashed _ => []
  | .returned _ s' _ _ => s'.users

/-- The next start finds the table from before or from after the operation, and one that failed
has not touched the table in memory. -/
def Survives (pwHash : Salt → List Char → Digest) (s : Users) (files : Files) (op : AccountOp)
    (plan : Plan) : Prop :=
  match op.run pwHash s files plan with
  | .crashed files' => usersLoad files' = s.users ∨ usersLoad files' = op.after pwHash s files
  | .returned files' s' ret _ =>
    (usersLoad files' = s.users ∨ usersLoad files' = op.after pwHash s files) ∧
    (ret < 0 → s'.users = s.users)

theorem Proceeds.after {op : AccountOp} {s' : Users} (h : Proceeds pwHash op s s') (files : Files) :
    op.after pwHash s files = s'.users := by
  obtain ⟨ret, -, hrun⟩ := h.run
  rw [AccountOp.after, hrun]
  rfl

theorem usersLoad_db {files files' : Files} (h : files'.db = files.db) :
    usersLoad files' = usersLoad files := by
  rw [usersLoad, h, usersLoad]

/-- What the next start reads after a save. -/
theorem load_after_save (hok : TableOk users) (files : Files) (plan : Plan) :
    (usersLoad (usersSave users files plan).files = usersLoad files ∨
        usersLoad (usersSave users files plan).files = users) ↔
        (plan.loses → usersLoad files = [] ∨ users = []) := by
  have hleaves := usersSave_leaves users files plan
  by_cases hl : plan.loses
  · have hnil : usersLoad (usersSave users files plan).files = [] := by
      rw [usersLoad, hleaves.lost hl]
    rw [hnil]
    exact ⟨fun h _ => h.imp Eq.symm Eq.symm, fun h => (h hl).imp Eq.symm Eq.symm⟩
  refine iff_of_true ((hleaves.kept hl).imp usersLoad_db fun hdb => ?_) fun h => absurd h hl
  have hdb' : _ = (⟨some (usersText users), none⟩ : Files).db := hdb
  exact (usersLoad_db hdb').trans (usersLoad_usersText hok none)

/-- When the account table survives: the operation is refused, or the database is not lost under
an account, and a failure that is reported is undone or had changed nothing. -/
theorem account_table_survives (pwHash : Salt → List Char → Digest) (files : Files) (current : ℤ)
    (op : AccountOp) (plan : Plan) : Survives pwHash ⟨usersLoad files, current⟩ files op plan ↔
      op.refused ⟨usersLoad files, current⟩ ∨ ((plan.loses → op.vacant ⟨usersLoad files, current⟩) ∧
          (plan.fails → op.isAdd = true ∨ op.idle pwHash ⟨usersLoad files, current⟩)) := by
  set s : Users := ⟨usersLoad files, current⟩ with hs
  rcases run_spec pwHash s op with ⟨href, hrun⟩ | ⟨href, s', hp⟩
  · obtain ⟨err, hrun⟩ := hrun files plan
    refine iff_of_true ?_ (.inl href)
    rw [Survives, hrun]
    exact ⟨.inl rfl, fun _ => rfl⟩
  obtain ⟨ret, hret, hrun⟩ := hp.run
  have hload := load_after_save (hp.ok (usersLoad_ok files)) files plan
  have hfailed := (usersSave_leaves s'.users files plan).failed
  rw [or_iff_right href, Survives, hrun, hp.after, ← hp.vacant, ← hp.idle, ← hload]
  generalize usersSave s'.users files plan = r at hfailed ⊢
  rcases r with files' | ⟨files', _ | _⟩
  · exact ⟨fun h => ⟨h, fun hf => (hfailed.mpr hf).elim⟩, fun h => h.1⟩
  · have hf : plan.fails := hfailed.mp rfl
    refine and_congr_right fun _ => ?_
    cases hadd : op.isAdd with
    | false => exact ⟨fun h _ => .inr (h (by decide)), fun h _ => (h hf).resolve_left (by decide)⟩
    | true => exact iff_of_true (fun _ => rfl) fun _ => .inl rfl
  · have hf : ¬plan.fails := fun hf => nomatch hfailed.mpr hf
    exact and_congr_right fun _ => iff_of_true (fun hneg => absurd hneg (by omega))
      fun h => absurd h hf

def root : Account := ⟨['r', 'o', 'o', 't'], .zero, .zero, true⟩

theorem root_ok : TableOk [root] := by
  refine ⟨by decide, fun u hu => ?_⟩
  obtain rfl := mem_singleton.mp hu
  exact ⟨by decide, by simp [root], by decide⟩

/-- A new password for the only account: the machine stops between the deletion of the database and
the second write, and no account is left; the first write is refused, and the password has changed
in memory all the same. -/
theorem password_change_empties_table : usersLoad ⟨some (usersText [root]), none⟩ = [root] ∧
      ¬Survives (fun _ _ => ⟨List.replicate 32 1, rfl⟩)
      ⟨usersLoad ⟨some (usersText [root]), none⟩, 0⟩
        ⟨some (usersText [root]), none⟩ (.setPassword 0 ['x'] ⟨List.replicate 8 1, rfl⟩)
        ⟨.done, true, .done, true, .dbDelete, ""⟩ ∧
      ¬Survives (fun _ _ => ⟨List.replicate 32 1, rfl⟩)
      ⟨usersLoad ⟨some (usersText [root]), none⟩, 0⟩
        ⟨some (usersText [root]), none⟩ (.setPassword 0 ['x'] ⟨List.replicate 8 1, rfl⟩)
        ⟨.kept, true, .done, true, .never, "no space"⟩ := by
  have hload := usersLoad_usersText root_ok none
  rw [hload]
  refine ⟨rfl, ?_, ?_⟩
  · rintro (hempty | hempty)
    · exact cons_ne_nil _ _ hempty.symm
    · exact cons_ne_nil _ _ hempty.symm
  · rintro ⟨-, hsame⟩
    exact absurd (hsame (by decide)) (by decide)

/-! ## The names of a table -/

variable {s' : Users} {files files' : Files} {plan : Plan} {ret : ℤ} {err : Option String}

/-- The names of a table are those `user_add` takes. -/
structure Named (users : List Account) : Prop where
  valid : ∀ u ∈ users, userNameOk u.name = none
  distinct : (users.map Account.name).Nodup

def plainChar (c : Char) : Bool := ('a' ≤ c && c ≤ 'z') || ('0' ≤ c && c ≤ '9')

theorem plainChar_of_userNameOk (h : userNameOk name = none) :
    name ≠ [] ∧ name.length ≤ 8 ∧ ∀ c ∈ name, plainChar c := by
  cases name with
  | nil => cases h
  | cons c cs =>
    have hscan : nameScan 0 (c :: cs) = none := by
      rw [userNameOk] at h
      split at h
      · cases h
      · assumption
    obtain ⟨hlen, hchars⟩ := nameScan_none hscan
    refine ⟨cons_ne_nil _ _, by simpa using hlen (cons_ne_nil _ _), fun d hd => ?_⟩
    simpa [plainChar] using hchars d hd

theorem plainChar_cases {p : Char → Prop} (hlower : ∀ n : Fin 26, p (Char.ofNat (97 + n)))
    (hdigit : ∀ n : Fin 10, p (Char.ofNat (48 + n))) {c : Char} (h : plainChar c) : p c := by
  have hc : Char.ofNat c.toNat = c := Char.ofNat_toNat c
  simp only [plainChar, Bool.or_eq_true, Bool.and_eq_true, decide_eq_true_eq, Char.le_def] at h
  rcases h with h | h
  · have hlo : 97 ≤ c.toNat := h.1
    have hhi : c.toNat ≤ 122 := h.2
    have hn := hlower ⟨c.toNat - 97, by omega⟩
    rwa [Nat.add_sub_cancel' hlo, hc] at hn
  have hlo : 48 ≤ c.toNat := h.1
  have hhi : c.toNat ≤ 57 := h.2
  have hn := hdigit ⟨c.toNat - 48, by omega⟩
  rwa [Nat.add_sub_cancel' hlo, hc] at hn

theorem Named.index_eq (h : Named users) {j : ℕ} {u w : Account} (hi : users[i]? = some u)
    (hj : users[j]? = some w) (hname : u.name = w.name) : i = j := by
  have hlt : i < (users.map Account.name).length := by
    rw [length_map]
    exact (List.getElem?_eq_some_iff.mp hi).1
  exact (getElem?_inj hlt h.distinct).mp (by simp [hi, hj, hname])

theorem saved_state (h : saved s files plan = .returned files' s' ret err) : s' = s := by
  rw [saved] at h
  split at h
  · cases h
  · cases h
    rfl
  · cases h
    rfl

end Vextro.Accounts
