import Vextro.Model.Registry
import Mathlib.Data.List.Perm.Subperm
import Mathlib.Data.List.Nodup
import Mathlib.Data.List.Induction

/-! The registry as a tree: where paths lead, and what setting and deleting change. -/

namespace Vextro.Registry

open List
open Function (update update_of_ne update_self forall_update_iff)

variable {n : ℕ} {a b path : List UInt8} {node : UInt16 → Node} {l : List UInt16}
  {q r q' : List (List UInt8)} {type : UInt8}

namespace Reg

variable {s s' : Reg} {kids kids' : UInt16 → List UInt16} {i k v c : UInt16} {name : List UInt8}

/-! ## Names -/

def cname (n : Node) : List UInt8 := n.name.takeWhile (· ≠ 0)

def folded (l : List UInt8) : List UInt8 := l.map lower

theorem lower_eq_zero (x : UInt8) : lower x = 0 ↔ x = 0 := by
  refine ⟨fun h => ?_, fun h => by rw [h]; decide⟩
  unfold lower at h
  split at h
  · rename_i hx
    have hn := congrArg UInt8.toNat h
    rw [UInt8.toNat_add, UInt8.toNat_sub_of_le _ _ hx.1] at hn
    have h1 := UInt8.le_iff_toNat_le.mp hx.1
    have h2 := UInt8.le_iff_toNat_le.mp hx.2
    simp at hn h1 h2
    omega
  · exact h

theorem regNameEq_of_ne (h : lower (a.headD 0) ≠ lower (b.headD 0)) :
    regNameEq (n + 1) a b = false := if_pos h

theorem regNameEq_of_eq (h : lower (a.headD 0) = lower (b.headD 0)) :
    regNameEq (n + 1) a b = if lower (a.headD 0) = 0 then true else regNameEq n a.tail b.tail :=
  if_neg fun hne => hne h

/-- A name that ends within the array against a C string. -/
theorem regNameEq_iff (ha : (a.takeWhile (· ≠ 0)).length < n) (hb : 0 ∉ b) :
    regNameEq n a b ↔ folded (a.takeWhile (· ≠ 0)) = folded b := by
  have hzero : lower 0 = 0 := (lower_eq_zero 0).mpr rfl
  induction n generalizing a b with
  | zero => cases ha
  | succ n ih =>
    have hnil : ∀ a : List UInt8, a.headD 0 = 0 →
        (regNameEq (n + 1) a b = true ↔ folded [] = folded b) := by
      intro a h0
      cases b with
      | nil =>
        rw [regNameEq_of_eq (by rw [h0]; rfl), if_pos (by rw [h0, hzero])]
        simp
      | cons y ys =>
        rw [regNameEq_of_ne]
        · simp [folded]
        · rw [h0]
          exact fun h => hb ((lower_eq_zero y).mp h.symm ▸ mem_cons_self)
    cases a with
    | nil => exact hnil [] rfl
    | cons x xs =>
      by_cases hx : x = 0
      · subst hx
        exact hnil _ rfl
      rw [takeWhile_cons_of_pos (by simpa using hx)] at ha ⊢
      cases b with
      | nil =>
        rw [regNameEq_of_ne]
        · simp [folded]
        · exact fun h => hx ((lower_eq_zero x).mp (h.trans hzero))
      | cons y ys =>
        simp only [folded, map_cons, cons.injEq]
        by_cases hxy : lower x = lower y
        · have hx' : lower ((x :: xs).headD 0) ≠ 0 := mt (lower_eq_zero x).mp hx
          rw [regNameEq_of_eq (a := x :: xs) (b := y :: ys) hxy, if_neg hx']
          simp only [hxy, true_and]
          exact ih (by simpa using ha) fun h => hb (mem_cons_of_mem y h)
        · rw [regNameEq_of_ne (a := x :: xs) (b := y :: ys) hxy]
          simp [hxy]

/-! ## Lists of children -/

/-- From `p` on, the siblings are those of the list. -/
def Kids (node : UInt16 → Node) : UInt16 → List UInt16 → Prop
  | p, [] => p = regNone
  | p, x :: xs => p = x ∧ Kids node (node x).nextSibling xs

theorem Kids.congr {node' : UInt16 → Node} {p : UInt16} (h : Kids node p l)
    (hsame : ∀ x ∈ l, (node' x).nextSibling = (node x).nextSibling) : Kids node' p l := by
  induction l generalizing p with
  | nil => exact h
  | cons x xs ih =>
    refine ⟨h.1, ?_⟩
    rw [hsame x mem_cons_self]
    exact ih h.2 fun y hy => hsame y (mem_cons_of_mem x hy)

def live (s : Reg) (i : UInt16) : Prop := i.toNat < s.count ∧ (s.node i).used ≠ 0

/-- The lists of children are lists of nodes in use, which name their parent and have different
names. -/
structure Sane (s : Reg) (kids : UInt16 → List UInt16) : Prop where
  count_le : s.count ≤ regMaxNodes
  root : live s 0
  unused : ∀ i : UInt16, s.count ≤ i.toNat → (s.node i).used = 0
  chain : ∀ k, live s k → Kids s.node (s.node k).firstChild (kids k)
  nodup : ∀ k, (kids k).Nodup
  parent : ∀ k, ∀ c ∈ kids k, live s k ∧ (s.node c).parent = k
  child : ∀ k, ∀ c ∈ kids k, c ≠ 0 ∧ live s c ∧ (cname (s.node c)).length < regNameLen
  names : ∀ k, ∀ c ∈ kids k, ∀ c' ∈ kids k,
    folded (cname (s.node c)) = folded (cname (s.node c')) → c = c'

/-- What the lists of children depend on. -/
def links (n : Node) : UInt8 × UInt16 × UInt16 × UInt16 × List UInt8 :=
  (n.used, n.parent, n.firstChild, n.nextSibling, cname n)

/-- Only the links and names of the nodes in use matter. -/
theorem Sane.congr (h : Sane s kids)
    (hcount : s'.count = s.count) (hunused : ∀ i : UInt16, s.count ≤ i.toNat → (s'.node i).used = 0)
    (hlinks : ∀ i : UInt16, i.toNat < s.count → links (s'.node i) = links (s.node i)) :
    Sane s' kids := by
  have hsame : ∀ i, live s i → live s' i ∧
      (s'.node i).parent = (s.node i).parent ∧ (s'.node i).firstChild = (s.node i).firstChild ∧
      (s'.node i).nextSibling = (s.node i).nextSibling ∧ cname (s'.node i) = cname (s.node i) := by
    intro i hi
    have heq := hlinks i hi.1
    simp only [links, Prod.mk.injEq] at heq
    obtain ⟨hu, heq⟩ := heq
    exact ⟨⟨hcount ▸ hi.1, hu ▸ hi.2⟩, heq⟩
  have hback : ∀ i, live s' i → live s i := by
    intro i hi
    have hlt : i.toNat < s.count := hcount ▸ hi.1
    have hu : (s'.node i).used = (s.node i).used := congrArg Prod.fst (hlinks i hlt)
    exact ⟨hlt, hu ▸ hi.2⟩
  refine ⟨hcount ▸ h.count_le, (hsame 0 h.root).1, fun i hi => hunused i (hcount ▸ hi),
    fun k hk => ?_, h.nodup, fun k c hc => ?_, fun k c hc => ?_, fun k c hc c' hc' hfold => ?_⟩
  · rw [(hsame k (hback k hk)).2.2.1]
    exact (h.chain k (hback k hk)).congr fun c hc => (hsame c (h.child k c hc).2.1).2.2.2.1
  · obtain ⟨hk, hp⟩ := h.parent k c hc
    exact ⟨(hsame k hk).1, (hsame c (h.child k c hc).2.1).2.1.trans hp⟩
  · obtain ⟨hc0, hl, hshort⟩ := h.child k c hc
    obtain ⟨hl', -, -, -, hcn⟩ := hsame c hl
    exact ⟨hc0, hl', hcn.symm ▸ hshort⟩
  · rw [(hsame c (h.child k c hc).2.1).2.2.2.2, (hsame c' (h.child k c' hc').2.1).2.2.2.2] at hfold
    exact h.names k c hc c' hc' hfold

theorem live.ne_none (h : live s i) (hcount : s.count ≤ regMaxNodes) : i ≠ regNone := by
  rintro rfl
  have hlt := Nat.lt_of_lt_of_le h.1 hcount
  exact absurd hlt (by decide)

/-- The walk along the siblings is a search of the list. -/
theorem findFrom_eq {p : UInt16} {fuel : ℕ} (h : Kids s.node p l) (hlive : ∀ c ∈ l, live s c)
    (hlen : l.length < fuel) (hcount : s.count ≤ regMaxNodes) : s.findFrom name fuel p =
      (l.find? fun c => regNameEq regNameLen (s.node c).name name).getD regNone := by
  induction l generalizing p fuel with
  | nil =>
    obtain rfl : p = regNone := h
    cases fuel <;> simp [findFrom]
  | cons x xs ih =>
    obtain ⟨rfl, hrest⟩ := h
    cases fuel with
    | zero => cases hlen
    | succ fuel =>
      have hp := hlive p mem_cons_self
      rw [findFrom, if_neg (not_or.mpr ⟨hp.ne_none hcount, Nat.not_le.mpr hp.1⟩)]
      by_cases hm : regNameEq regNameLen (s.node p).name name = true
      · rw [if_pos ⟨hp.2, hm⟩, find?_cons, hm]
        rfl
      · rw [if_neg fun h => hm h.2, find?_cons, eq_false_of_ne_true hm]
        exact ih hrest (fun c hc => hlive c (mem_cons_of_mem p hc)) (by simpa using hlen)

namespace Sane

variable (h : Sane s kids)
include h

/-- The list of a node leaves room in the table, so that no walk runs out of fuel. -/
theorem length_lt (k : UInt16) : (kids k).length < regMaxNodes := by
  have hnd : ((0 :: kids k).map UInt16.toNat).Nodup :=
    (nodup_cons.mpr ⟨fun h0 => (h.child k 0 h0).1 rfl, h.nodup k⟩).map
    fun _ _ => UInt16.toNat_inj.mp
  have hsub : (0 :: kids k).map UInt16.toNat ⊆ range regMaxNodes := by
    intro x hx
    obtain ⟨c, hc, rfl⟩ := mem_map.mp hx
    have hlive : live s c :=
      (mem_cons.mp hc).elim (fun h0 => h0 ▸ h.root) fun hc => (h.child k c hc).2.1
    exact mem_range.mpr (Nat.lt_of_lt_of_le hlive.1 h.count_le)
  have hlen := (subperm_of_subset hnd hsub).length_le
  rwa [length_map, length_range] at hlen

/-- A child is found by its name, whatever its case, if there is one. -/
theorem find (hk : live s k) (hname : 0 ∉ name) :
    (s.regFindChild k name = regNone ∧ ∀ c ∈ kids k, folded (cname (s.node c)) ≠ folded name) ∨
      (s.regFindChild k name ∈ kids k ∧
        folded (cname (s.node (s.regFindChild k name))) = folded name) := by
  have hiff : ∀ c ∈ kids k, (regNameEq regNameLen (s.node c).name name = true ↔
      folded (cname (s.node c)) = folded name) :=
    fun c hc => regNameEq_iff (h.child k c hc).2.2 hname
  rw [regFindChild, if_neg (Nat.not_le.mpr hk.1),
    findFrom_eq (h.chain k hk) (fun c hc => (h.child k c hc).2.1) (h.length_lt k) h.count_le]
  cases hf : (kids k).find? fun c => regNameEq regNameLen (s.node c).name name with
  | none => exact .inl ⟨rfl, fun c hc hm => find?_eq_none.mp hf c hc ((hiff c hc).mpr hm)⟩
  | some c =>
    have hc := mem_of_find?_eq_some hf
    have hm : regNameEq regNameLen (s.node c).name name :=
      find?_some (p := fun c => regNameEq regNameLen (s.node c).name name) hf
    exact .inr ⟨hc, (hiff c hc).mp hm⟩

theorem find_eq (hname : 0 ∉ name) (hc : c ∈ kids k)
    (hm : folded (cname (s.node c)) = folded name) : s.regFindChild k name = c := by
  rcases h.find (h.parent k c hc).1 hname with ⟨-, hnone⟩ | ⟨hmem, hfold⟩
  · exact absurd hm (hnone c hc)
  · exact h.names k _ hmem c hc (hfold.trans hm.symm)

theorem ne_none (hc : c ∈ kids k) : c ≠ regNone := (h.child k c hc).2.1.ne_none h.count_le

end Sane

/-! ## Paths -/

/-- The path leads from one node to another. -/
def Leads (s : Reg) (kids : UInt16 → List UInt16) : UInt16 → List (List UInt8) → UInt16 → Prop
  | k, [], v => v = k
  | k, seg :: rest, v =>
    ∃ c ∈ kids k, folded (cname (s.node c)) = folded seg ∧ Leads s kids c rest v

theorem leads_append :
    Leads s kids k (q ++ r) v ↔ ∃ u, Leads s kids k q u ∧ Leads s kids u r v := by
  induction q generalizing k with
  | nil => exact ⟨fun h => ⟨k, rfl, h⟩, fun ⟨u, hu, h⟩ => (hu : u = k) ▸ h⟩
  | cons seg rest ih =>
    simp only [cons_append, Leads, ih]
    exact ⟨fun ⟨c, hc, hn, u, hu, h⟩ => ⟨u, ⟨c, hc, hn, hu⟩, h⟩,
      fun ⟨u, ⟨c, hc, hn, hu⟩, h⟩ => ⟨c, hc, hn, u, hu, h⟩⟩

theorem Sane.leads_live (h : Sane s kids) (hk : live s k) (hq : Leads s kids k q v) : live s v := by
  induction q generalizing k with
  | nil => exact (hq : v = k) ▸ hk
  | cons seg rest ih =>
    obtain ⟨c, hc, -, hrest⟩ := hq
    exact ih (h.child k c hc).2.1 hrest

/-- A path leads to one node at most. -/
theorem Sane.leads_unique (h : Sane s kids) {w : UInt16} (hv : Leads s kids k q v)
    (hw : Leads s kids k q w) :
    v = w := by
  induction q generalizing k with
  | nil => exact Eq.trans hv (Eq.symm hw)
  | cons seg rest ih =>
    obtain ⟨c, hc, hname, hrest⟩ := hv
    obtain ⟨c', hc', hname', hrest'⟩ := hw
    obtain rfl := h.names k c hc c' hc' (hname.trans hname'.symm)
    exact ih hrest hrest'

/-- Two paths to one node are the same, up to case. -/
theorem Sane.leads_inj (h : Sane s kids) (hq : Leads s kids 0 q v) (hq' : Leads s kids 0 q' v) :
    q.map folded = q'.map folded := by
  induction q using reverseRecOn generalizing q' v with
  | nil =>
    obtain rfl : v = 0 := hq
    induction q' using reverseRecOn with
    | nil => rfl
    | append_singleton r seg _ =>
      obtain ⟨u, -, c, hc, -, rfl⟩ := leads_append.mp hq'
      exact absurd rfl (h.child u _ hc).1
  | append_singleton r seg ih =>
    obtain ⟨u, hu, c, hc, hname, rfl⟩ := leads_append.mp hq
    induction q' using reverseRecOn with
    | nil =>
      obtain rfl : v = 0 := hq'
      exact absurd rfl (h.child u _ hc).1
    | append_singleton r' seg' _ =>
      obtain ⟨u', hu', c', hc', hname', rfl⟩ := leads_append.mp hq'
      obtain rfl : u = u' := (h.parent u _ hc).2.symm.trans (h.parent u' _ hc').2
      rw [map_append, map_append, ih hu hu', map_singleton, map_singleton, ← hname, ← hname']

theorem leads_congr (hq : q.map folded = q'.map folded) (h : Leads s kids k q v) :
    Leads s kids k q' v := by
  induction q generalizing k q' with
  | nil => rwa [map_eq_nil_iff.mp hq.symm]
  | cons seg rest ih =>
    obtain ⟨seg', rest', rfl, hseg, hrest⟩ := map_eq_cons_iff.mp hq.symm
    obtain ⟨c, hc, hname, hl⟩ := h
    exact ⟨c, hc, hname.trans hseg.symm, ih hrest.symm hl⟩

/-- A path below another goes through where that one leads. -/
theorem leads_of_below (hq : q.map folded <+: q'.map folded) (h : Leads s kids k q' v) :
    ∃ u, Leads s kids k q u := by
  obtain ⟨t, ht⟩ := hq
  obtain ⟨r, r', rfl, hr, -⟩ := map_eq_append_iff.mp ht.symm
  obtain ⟨u, hu, -⟩ := leads_append.mp h
  exact ⟨u, leads_congr hr hu⟩

/-- A key that is not to be created is found where its path leads. -/
theorem Sane.keyFrom_find (h : Sane s kids) (h0 : ∀ seg ∈ q, 0 ∉ seg) (hk : live s k) :
    (keyFrom false s k q).2 = regNone ∧ (∀ v, ¬Leads s kids k q v) ∨
    Leads s kids k q (keyFrom false s k q).2 := by
  induction q generalizing k with
  | nil => exact .inr rfl
  | cons seg rest ih =>
    obtain ⟨hseg, hrest⟩ := forall_mem_cons.mp h0
    rw [keyFrom]
    rcases h.find hk hseg with ⟨hnone, hno⟩ | ⟨hmem, hname⟩
    · rw [if_pos hnone]
      exact .inl ⟨rfl, fun v ⟨c, hc, hcn, _⟩ => hno c hc hcn⟩
    rw [if_neg (h.ne_none hmem)]
    refine (ih hrest (h.child k _ hmem).2.1).imp (fun hn => ⟨hn.1, ?_⟩)
      fun hl => ⟨_, hmem, hname, hl⟩
    rintro v ⟨c, hc, hcn, hv⟩
    obtain rfl := h.names k c hc _ hmem (hcn.trans hname.symm)
    exact hn.2 v hv

/-- No value is read where no path leads. -/
theorem Sane.regGet_eq_none (h : Sane s kids) (hp : ∀ seg ∈ segments path, 0 ∉ seg) (h0 : 0 ∉ name)
    (hno : ∀ v, ¬Leads s kids 0 (segments path ++ [name]) v) : s.regGet path name = none := by
  rw [regGet]
  rcases h.keyFrom_find hp h.root with ⟨hnone, -⟩ | hl
  · rw [regKey, if_pos hnone]
  have hk := h.leads_live h.root hl
  rw [regKey, if_neg (hk.ne_none h.count_le)]
  rcases h.find hk h0 with ⟨hnone, -⟩ | ⟨hv, hname⟩
  · rw [if_pos hnone]
  · have hlead : Leads s kids (keyFrom false s 0 (segments path)).2 [name] _ := ⟨_, hv, hname, rfl⟩
    exact absurd (leads_append.mpr ⟨_, hl, hlead⟩) (hno _)

/-- The value of the node a path leads to. -/
theorem Sane.regGet_eq (h : Sane s kids) (hp : ∀ seg ∈ segments path, 0 ∉ seg) (h0 : 0 ∉ name)
    (hv : Leads s kids 0 (segments path ++ [name]) v) :
    s.regGet path name = some ((s.node v).type, (s.node v).data.take (s.node v).dataLen.toNat) := by
  obtain ⟨k, hk, c, hc, hname, rfl⟩ := leads_append.mp hv
  have hkey : (s.regKey path false).2 = k :=
    (h.keyFrom_find hp h.root).elim (fun hno => absurd hk (hno.2 k)) fun hl => h.leads_unique hl hk
  rw [regGet, hkey, if_neg ((h.parent k _ hc).1.ne_none h.count_le), h.find_eq h0 hc hname,
    if_neg (h.ne_none hc)]

/-! ## Growing -/

/-- What a node shows: its name, its type and its data. -/
def shows (n : Node) : List UInt8 × UInt8 × UInt32 × List UInt8 :=
  (cname n, n.type, n.dataLen, n.data)

/-- The tree has grown: the nodes in use still are, with the same names and children. -/
structure Grows (s : Reg) (kids : UInt16 → List UInt16) (s' : Reg) (kids' : UInt16 → List UInt16) :
    Prop where
  sane : Sane s' kids'
  live : ∀ j, live s j → live s' j
  kids : ∀ m, kids m ⊆ kids' m
  names : ∀ j, Reg.live s j → cname (s'.node j) = cname (s.node j)

theorem Grows.trans {s'' : Reg} {kids'' : UInt16 → List UInt16} (g : Grows s kids s' kids')
    (g' : Grows s' kids' s'' kids'') : Grows s kids s'' kids'' :=
  ⟨g'.sane, fun j hj => g'.live j (g.live j hj), fun m => List.Subset.trans (g.kids m) (g'.kids m),
    fun j hj => (g'.names j (g.live j hj)).trans (g.names j hj)⟩

/-- What was reached by a path still is. -/
theorem Grows.leads (g : Grows s kids s' kids') (h : Sane s kids) (hq : Leads s kids k q v) :
    Leads s' kids' k q v := by
  induction q generalizing k with
  | nil => exact hq
  | cons seg rest ih =>
    obtain ⟨c, hc, hname, hrest⟩ := hq
    exact ⟨c, g.kids k hc, (congrArg folded (g.names c (h.child k c hc).2.1)).trans hname, ih hrest⟩

/-- Children that are new lie on the path, and were not in use. -/
def Added (s : Reg) (kids : UInt16 → List UInt16) (s' : Reg) (kids' : UInt16 → List UInt16)
    (k : UInt16) (q : List (List UInt8)) : Prop :=
  ∀ m, ∀ c ∈ kids' m, c ∉ kids m → ¬live s c ∧ ∃ r, r <+: q ∧ Leads s' kids' k r c

/-- Where a path leads now it led before, if it does not lie on the one that was added. -/
theorem Grows.leads_back (g : Grows s kids s' kids') (h : Sane s kids)
    (ha : Added s kids s' kids' 0 q) (hr : Leads s' kids' 0 r v) :
    Leads s kids 0 r v ∨ r.map folded <+: q.map folded := by
  by_cases hv : Reg.live s v
  · left
    induction r using reverseRecOn generalizing v with
    | nil => exact hr
    | append_singleton r seg ih =>
      obtain ⟨m, hm, c, hc, hname, rfl⟩ := leads_append.mp hr
      have hold : v ∈ kids m := by_contra fun hnew => (ha m v hc hnew).1 hv
      exact leads_append.mpr ⟨m, ih hm (h.parent m v hold).1, v, hold, g.names v hv ▸ hname, rfl⟩
  right
  induction r using reverseRecOn with
  | nil => exact nil_prefix
  | append_singleton r seg _ =>
    obtain ⟨m, hm, c, hc, -, rfl⟩ := leads_append.mp hr
    obtain ⟨-, r', hr', hl⟩ := ha m v hc fun hold => hv (h.child m v hold).2.1
    exact g.sane.leads_inj hl hr ▸ hr'.map folded

/-- A node not in use, and not the root. -/
theorem firstFree_spec (h : s.firstFree = some i) :
    (s.node i).used = 0 ∧ i ≠ 0 ∧ i.toNat < regMaxNodes := by
  have hmem := mem_of_find?_eq_some h
  obtain ⟨n, hn, rfl⟩ := mem_map.mp hmem
  have hlt : n < 1023 := mem_range.mp hn
  have hnat : (UInt16.ofNat (n + 1)).toNat = n + 1 :=
    UInt16.toNat_ofNat_of_lt' (by change n + 1 < 65536; omega)
  refine ⟨by simpa using find?_some h, fun h0 => ?_, by rw [hnat]; exact Nat.succ_lt_succ hlt⟩
  have hzero := congrArg UInt16.toNat h0
  rw [hnat] at hzero
  cases hzero

theorem takeWhile_field {l : List UInt8} (h0 : 0 ∉ l) (hlen : l.length < n) :
    (field n l).takeWhile (· ≠ 0) = l := by
  obtain ⟨m, rfl⟩ : ∃ m, n = l.length + 1 + m := ⟨n - l.length - 1, by omega⟩
  have hsplit : field (l.length + 1 + m) l = l ++ 0 :: replicate m 0 := by
    rw [field, take_append, take_of_length_le (by omega), take_replicate, ← replicate_succ]
    congr 2
    omega
  rw [hsplit, takeWhile_append_of_pos]
  · simp
  intro x hx
  have hx0 : x ≠ 0 := fun h => h0 (h ▸ hx)
  simpa using hx0

/-- A new node becomes the first child of its parent. -/
theorem regNewNode_spec (hk : live s k) (hr : s.regNewNode k name type = (s', i))
    (hi : i ≠ regNone) :
    (s.node i).used = 0 ∧ i ≠ 0 ∧ i.toNat < regMaxNodes ∧
      s'.count = (if i.toNat + 1 > s.count then i.toNat + 1 else s.count) ∧
      (s'.node i).used = 1 ∧ (s'.node i).parent = k ∧ (s'.node i).firstChild = regNone ∧
      (s'.node i).nextSibling = (s.node k).firstChild ∧
      (s'.node i).name = field regNameLen (name.take (regNameLen - 1)) ∧
      s'.node k = { s.node k with firstChild := i } ∧ ∀ j ≠ i, j ≠ k → s'.node j = s.node j := by
  unfold regNewNode at hr
  split at hr
  · exact absurd (Prod.mk.inj hr).2.symm hi
  cases hf : s.firstFree with
  | none =>
    rw [hf] at hr
    exact absurd (Prod.mk.inj hr).2.symm hi
  | some idx =>
    rw [hf] at hr
    obtain ⟨rfl, rfl⟩ := Prod.mk.inj hr
    obtain ⟨hused, h0, hlt⟩ := firstFree_spec hf
    have hne : k ≠ idx := by
      rintro rfl
      exact hk.2 hused
    simp only [update_of_ne hne.symm, update_self, update_of_ne hne]
    refine ⟨hused, h0, hlt, trivial, trivial, trivial, trivial, trivial, trivial, trivial,
      fun j hj hjk => ?_⟩
    rw [update_of_ne hjk, update_of_ne hj]

/-- A name that a node can hold. -/
def Fits (name : List UInt8) : Prop := 0 ∉ name ∧ name.length < regNameLen

theorem mem_update_cons : ∀ {m}, c ∈ update kids k (i :: kids k) m → m = k ∧ c = i ∨ c ∈ kids m :=
  @fun m =>
  (forall_update_iff kids fun m l => c ∈ l → m = k ∧ c = i ∨ c ∈ kids m).mpr
    ⟨fun hc => (mem_cons.mp hc).imp_left fun h => ⟨rfl, h⟩, fun _ _ => .inr⟩ m

/-- The tree with a new node, whose name no other child has. -/
theorem Sane.newNode (h : Sane s kids)
    (hk : live s k) (hn : Fits name) (hnone : ∀ c ∈ kids k, folded (cname (s.node c)) ≠ folded name)
    (hr : s.regNewNode k name type = (s', i)) (hi : i ≠ regNone) :
    Grows s kids s' (update kids k (i :: kids k)) ∧ ¬live s i ∧ cname (s'.node i) = name ∧
      ∀ j, live s j → shows (s'.node j) = shows (s.node j) := by
  obtain ⟨hused, hi0, hlt, hcount, huse, hparent, hfirst, hnext, hname, hnk, hother⟩ :=
    regNewNode_spec hk hr hi
  have hdead : ¬live s i := fun hl => hl.2 hused
  have hcn : cname (s'.node i) = name := by
    rw [cname, hname, take_of_length_le (Nat.le_sub_one_of_lt hn.2)]
    exact takeWhile_field hn.1 hn.2
  have hle : s.count ≤ s'.count ∧ i.toNat < s'.count := by
    rw [hcount]
    split <;> omega
  -- the parent gets a first child, and no other node changes
  have hrest : ∀ j ≠ i, ∃ first, s'.node j = { s.node j with firstChild := first } := by
    intro j hj
    by_cases hjk : j = k
    · subst hjk
      exact ⟨i, hnk⟩
    · exact ⟨_, hother j hj hjk⟩
  have hne : ∀ j, live s j → j ≠ i := fun j hj hji => hdead (hji ▸ hj)
  have hsame : ∀ j, live s j → live s' j ∧ (s'.node j).nextSibling = (s.node j).nextSibling ∧
      (s'.node j).parent = (s.node j).parent ∧ shows (s'.node j) = shows (s.node j) := by
    intro j hj
    obtain ⟨first, heq⟩ := hrest j (hne j hj)
    rw [live, heq]
    exact ⟨⟨Nat.lt_of_lt_of_le hj.1 hle.1, hj.2⟩, rfl, rfl, rfl⟩
  have hnames : ∀ j, live s j → cname (s'.node j) = cname (s.node j) :=
    fun j hj => congrArg Prod.fst (hsame j hj).2.2.2
  have hback : ∀ j, live s' j → j ≠ i → live s j := by
    intro j hj hji
    obtain ⟨first, heq⟩ := hrest j hji
    have hu : (s.node j).used ≠ 0 := by
      have := hj.2
      rwa [heq] at this
    exact ⟨Nat.lt_of_not_le fun hge => hu (h.unused j hge), hu⟩
  have hlive : live s' i := ⟨hle.2, by rw [huse]; decide⟩
  refine ⟨⟨⟨?_, (hsame 0 h.root).1, fun j hj => ?_, fun m hm => ?_, fun m => ?_, fun m c hc => ?_,
        fun m c hc => ?_, fun m c hc c' hc' hfold => ?_⟩, fun j hj => (hsame j hj).1, fun m => ?_,
      hnames⟩, hdead, hcn, fun j hj => (hsame j hj).2.2.2⟩
  · rw [hcount]
    split
    · exact hlt
    · exact h.count_le
  · obtain ⟨first, heq⟩ := hrest j (by rintro rfl; omega)
    rw [heq]
    exact h.unused j (Nat.le_trans hle.1 hj)
  · have hcongr : ∀ m p, Kids s.node p (kids m) → Kids s'.node p (kids m) := fun m p hp =>
      hp.congr fun c hc => (hsame c (h.child m c hc).2.1).2.1
    by_cases hmk : m = k
    · subst hmk
      rw [update_self, hnk]
      exact ⟨rfl, hnext ▸ hcongr m _ (h.chain m hk)⟩
    rw [update_of_ne hmk]
    by_cases hmi : m = i
    · subst hmi
      have hnil : kids m = [] := eq_nil_iff_forall_not_mem.mpr fun c hc => hdead (h.parent m c hc).1
      rwa [hnil]
    · rw [hother m hmi hmk]
      exact hcongr m _ (h.chain m (hback m hm hmi))
  · exact (forall_update_iff kids fun _ => List.Nodup).mpr
      ⟨nodup_cons.mpr ⟨fun hin => hdead (h.child k i hin).2.1, h.nodup k⟩, fun m _ => h.nodup m⟩ m
  · rcases mem_update_cons hc with ⟨rfl, rfl⟩ | hc'
    · exact ⟨(hsame m hk).1, hparent⟩
    · obtain ⟨hl, hp⟩ := h.parent m c hc'
      exact ⟨(hsame m hl).1, (hsame c (h.child m c hc').2.1).2.2.1.trans hp⟩
  · rcases mem_update_cons hc with ⟨rfl, rfl⟩ | hc'
    · exact ⟨hi0, hlive, hcn ▸ hn.2⟩
    · obtain ⟨hc0, hl, hshort⟩ := h.child m c hc'
      exact ⟨hc0, (hsame c hl).1, hnames c hl ▸ hshort⟩
  · rcases mem_update_cons hc with ⟨hmk, rfl⟩ | hcm <;>
      rcases mem_update_cons hc' with ⟨hmk', hci⟩ | hcm'
    · exact hci.symm
    · rw [hcn, hnames c' (h.child m c' hcm').2.1] at hfold
      exact absurd hfold.symm (hnone c' (hmk ▸ hcm'))
    · rw [hci, hcn, hnames c (h.child m c hcm).2.1] at hfold
      exact absurd hfold (hnone c (hmk' ▸ hcm))
    · rw [hnames c (h.child m c hcm).2.1, hnames c' (h.child m c' hcm').2.1] at hfold
      exact h.names m c hcm c' hcm' hfold
  · exact (forall_update_iff kids fun m l => kids m ⊆ l).mpr
      ⟨subset_cons_self .., fun _ _ => List.Subset.refl _⟩ m

theorem added_refl (k : UInt16) (q : List (List UInt8)) :
    Added s kids s' kids k q := fun _ _ hc hnew =>
  absurd hc hnew

theorem Grows.refl (h : Sane s kids) : Grows s kids s kids :=
  ⟨h, fun _ => id, fun _ => List.Subset.refl _, fun _ _ => rfl⟩

/-- One step along a path that is created where it is missing. -/
theorem Sane.child_or_new (h : Sane s kids) (hk : live s k)
    (hn : Fits name) (hr : (if s.regFindChild k name = regNone then s.regNewNode k name type
      else (s, s.regFindChild k name)) = (s', v)) (hv : v ≠ regNone) :
    ∃ kids', Grows s kids s' kids' ∧ Added s kids s' kids' k [name] ∧ v ∈ kids' k ∧
      folded (cname (s'.node v)) = folded name ∧ ∀ j, live s j →
      shows (s'.node j) = shows (s.node j) := by
  rcases h.find hk hn.1 with ⟨hnone, hno⟩ | ⟨hmem, hname⟩
  · rw [if_pos hnone] at hr
    obtain ⟨g, hdead, hcn, hshows⟩ := h.newNode hk hn hno hr hv
    have hvk : v ∈ update kids k (v :: kids k) k := by
      rw [update_self]
      exact mem_cons_self
    refine ⟨_, g, fun m c hc hnew => ?_, hvk, by rw [hcn], hshows⟩
    obtain ⟨rfl, rfl⟩ := (mem_update_cons hc).resolve_right hnew
    exact ⟨hdead, _, prefix_refl _, c, hvk, by rw [hcn], rfl⟩
  · rw [if_neg (h.ne_none hmem)] at hr
    cases hr
    exact ⟨kids, .refl h, added_refl _ _, hmem, hname, fun _ _ => rfl⟩

theorem Added.trans {s'' : Reg} {kids'' : UInt16 → List UInt16} (g : Grows s kids s' kids')
    (ha : Added s kids s' kids' k q) (g' : Grows s' kids' s'' kids'') (hq : Leads s' kids' k q c)
    (ha' : Added s' kids' s'' kids'' c r) : Added s kids s'' kids'' k (q ++ r) := by
  intro m x hx hnew
  by_cases hold : x ∈ kids' m
  · obtain ⟨hdead, p, hp, hl⟩ := ha m x hold hnew
    exact ⟨hdead, p, hp.trans (prefix_append q r), g'.leads g.sane hl⟩
  obtain ⟨hdead, p, hp, hl⟩ := ha' m x hx hold
  exact ⟨fun hlive => hdead (g.live x hlive), q ++ p, (prefix_append_right_inj q).mpr hp,
    leads_append.mpr ⟨c, g'.leads g.sane hq, hl⟩⟩

/-- The loop goes on from the child, if there is one. -/
theorem keyFrom_cons (seg : List UInt8) (rest : List (List UInt8)) :
    keyFrom true s k (seg :: rest) =
      let r := if s.regFindChild k seg = regNone then s.regNewNode k seg regKeyType
        else (s, s.regFindChild k seg)
      if r.2 = regNone then r else keyFrom true r.1 r.2 rest := by
  rw [keyFrom]
  by_cases hf : s.regFindChild k seg = regNone
  · simp only [if_pos hf]
    rw [if_neg (by simp)]
  · simp only [if_neg hf]

/-- The path leads to the key that was created. -/
theorem Sane.keyFrom_create (h : Sane s kids) (hq : ∀ seg ∈ q, Fits seg) (hk : live s k)
    (hr : keyFrom true s k q = (s', v)) (hv : v ≠ regNone) :
    ∃ kids', Grows s kids s' kids' ∧ Added s kids s' kids' k q ∧ Leads s' kids' k q v ∧
      ∀ j, live s j → shows (s'.node j) = shows (s.node j) := by
  induction q generalizing s kids k with
  | nil =>
    cases hr
    exact ⟨kids, .refl h, added_refl _ _, rfl, fun _ _ => rfl⟩
  | cons seg rest ih =>
    obtain ⟨hseg, hrest⟩ := forall_mem_cons.mp hq
    cases hc : (if s.regFindChild k seg = regNone then s.regNewNode k seg regKeyType
        else (s, s.regFindChild k seg)) with
    | mk s₁ c =>
      rw [keyFrom_cons, hc] at hr
      simp only at hr
      by_cases hcn : c = regNone
      · rw [if_pos hcn] at hr
        exact absurd ((Prod.mk.inj hr).2.symm.trans hcn) hv
      rw [if_neg hcn] at hr
      obtain ⟨kids₁, g, ha, hmem, hname, hshows⟩ := h.child_or_new hk hseg hc hcn
      have hlead : Leads s₁ kids₁ k [seg] c := ⟨c, hmem, hname, rfl⟩
      obtain ⟨kids', g', ha', hl, hshows'⟩ := ih g.sane hrest (g.sane.child k c hmem).2.1 hr
      refine ⟨kids', g.trans g', ha.trans g g' hlead ha', ?_, fun j hj => ?_⟩
      · exact leads_append.mpr ⟨c, g'.leads g.sane hlead, hl⟩
      · rw [hshows' j (g.live j hj), hshows j hj]

/-! ## Setting a value -/

/-- A value in place of the old one leaves the tree as it is. -/
theorem Sane.put (h : Sane s kids) (v : UInt16) (type : UInt8) (data : List UInt8) :
    Grows s kids { s with node := update s.node v (put (s.node v) type data), dirty := true }
      kids := by
  have hlinks : ∀ j, links (update s.node v (Reg.put (s.node v) type data) j) = links (s.node j) :=
    (forall_update_iff s.node fun j n => links n = links (s.node j)).mpr ⟨rfl, fun _ _ => rfl⟩
  have hused : ∀ j,
      (update s.node v (Reg.put (s.node v) type data) j).used = (s.node j).used := fun j =>
    congrArg Prod.fst (hlinks j)
  exact ⟨h.congr rfl (fun i hi => (hused i).trans (h.unused i hi)) fun i _ => hlinks i,
    fun j hj => ⟨hj.1, by simpa only [hused j] using hj.2⟩, fun _ => List.Subset.refl _,
    fun j _ => congrArg (fun l => l.2.2.2.2) (hlinks j)⟩

/-- A value that was set is where its path leads, and nothing else is new but that path. -/
theorem Sane.set (h : Sane s kids) {data : List UInt8} (hp : ∀ seg ∈ segments path, Fits seg)
    (hn : Fits name) (hr : s.regSet path name type data = (s', true)) :
    ∃ kids' v, Grows s kids s' kids' ∧ Added s kids s' kids' 0 (segments path ++ [name]) ∧
      Leads s' kids' 0 (segments path ++ [name]) v ∧ (s'.node v).type = type ∧
      (s'.node v).data.take (s'.node v).dataLen.toNat = data ∧
      ∀ j ≠ v, live s j → shows (s'.node j) = shows (s.node j) := by
  unfold regSet at hr
  split at hr
  · exact absurd (Prod.mk.inj hr).2 (by simp)
  rename_i hlen
  rcases hkey : s.regKey path true with ⟨s₁, k⟩
  simp only [hkey] at hr
  by_cases hkn : k = regNone
  · rw [if_pos hkn] at hr
    exact absurd (Prod.mk.inj hr).2 (by simp)
  rw [if_neg hkn] at hr
  obtain ⟨kids₁, g₁, ha₁, hl₁, hshows₁⟩ := h.keyFrom_create hp h.root hkey hkn
  have hk := g₁.sane.leads_live g₁.sane.root hl₁
  cases hc : (if s₁.regFindChild k name = regNone then s₁.regNewNode k name type
      else (s₁, s₁.regFindChild k name)) with
  | mk s₂ v =>
    rw [hc] at hr
    by_cases hv : v = regNone
    · rw [if_pos hv] at hr
      exact absurd (Prod.mk.inj hr).2 (by simp)
    rw [if_neg hv] at hr
    obtain ⟨rfl, -⟩ := Prod.mk.inj hr
    obtain ⟨kids₂, g₂, ha₂, hmem, hname, hshows₂⟩ := g₁.sane.child_or_new hk hn hc hv
    have g₃ := g₂.sane.put v type data
    have hv₂ : Leads s₂ kids₂ 0 (segments path ++ [name]) v :=
      leads_append.mpr ⟨k, g₂.leads g₁.sane hl₁, v, hmem, hname, rfl⟩
    have ha := (ha₁.trans g₁ g₂ hl₁ ha₂).trans (g₁.trans g₂) g₃ hv₂ (added_refl v [])
    rw [append_nil] at ha
    refine ⟨kids₂, v, (g₁.trans g₂).trans g₃, ha, g₃.leads g₂.sane hv₂, ?_, ?_, fun j hjv hj => ?_⟩
    · simp only [update_self]
      rfl
    · have hsize : data.length ≤ regMaxData := Nat.le_of_not_lt hlen
      have hnat : (UInt32.ofNat data.length).toNat = data.length :=
        UInt32.toNat_ofNat_of_lt' (Nat.lt_of_le_of_lt hsize (by decide))
      have hdata : data.take (s₂.node v).data.length = data :=
        take_of_length_le (by rw [(s₂.node v).data_length]; exact hsize)
      simp only [update_self, Reg.put, hnat, overlaid, hdata]
      exact take_left
    · simp only [update_of_ne hjv]
      rw [hshows₂ j (g₁.live j hj), hshows₁ j hj]

/-! ## Deleting a value -/

/-- The link to `v` is replaced by the one that leads on from it. -/
theorem unlinkFrom_spec (fuel : ℕ) (h : Kids node (node c).nextSibling l)
    (hnd : (c :: l).Nodup) (hv : v ∈ l) (hlen : l.length ≤ fuel) (hne : ∀ x ∈ l, x ≠ regNone) :
    ∃ x ∈ c :: l, x ≠ v ∧ unlinkFrom v fuel node c =
        update node x { node x with nextSibling := (node v).nextSibling } ∧
      Kids (update node x { node x with nextSibling := (node v).nextSibling }) c
        (c :: l.erase v) := by
  induction l generalizing c fuel with
  | nil => cases hv
  | cons y ys ih =>
    obtain ⟨hy, hrest⟩ := h
    obtain ⟨hc, hnd'⟩ := nodup_cons.mp hnd
    cases fuel with
    | zero => cases hlen
    | succ fuel =>
      rw [unlinkFrom, if_neg (by rw [hy]; exact hne y mem_cons_self)]
      by_cases hyv : y = v
      · subst hyv
        rw [if_pos hy, erase_cons_head]
        refine ⟨c, mem_cons_self, fun hcy => hc (hcy ▸ mem_cons_self), rfl, rfl, ?_⟩
        rw [update_self]
        refine hrest.congr fun z hz => ?_
        have hzc : z ≠ c := fun h => hc (h ▸ mem_cons_of_mem y hz)
        rw [update_of_ne hzc]
      rw [if_neg (by rw [hy]; exact hyv), hy, erase_cons_tail (by simpa using hyv)]
      obtain ⟨x, hx, hxv, heq, hkids⟩ :=
        ih fuel hrest hnd' ((mem_cons.mp hv).resolve_left (Ne.symm hyv)) (by simpa using hlen)
        fun z hz => hne z (mem_cons_of_mem y hz)
      refine ⟨x, mem_cons_of_mem c hx, hxv, heq, rfl, ?_⟩
      have hcx : c ≠ x := fun h => hc (h ▸ hx)
      rwa [update_of_ne hcx, hy]

/-- Only the first link of `k` and the links between its children have changed. -/
structure Relinked (s : Reg) (k : UInt16) (l : List UInt16) (j : UInt16) (n : Node) : Prop where
  used : n.used = (s.node j).used
  parent : n.parent = (s.node j).parent
  shows : shows n = shows (s.node j)
  first : j ≠ k → n.firstChild = (s.node j).firstChild
  next : j ∉ l → n.nextSibling = (s.node j).nextSibling

namespace Sane

variable (h : Sane s kids)
include h

/-- The children of `k` without `v`: what the first link and the links between them have become. -/
theorem unlink (hv : v ∈ kids k) :
    let node := if (s.node k).firstChild = v then
        update s.node k { s.node k with firstChild := (s.node v).nextSibling }
      else unlinkFrom v regMaxNodes s.node (s.node k).firstChild
    Kids node (node k).firstChild ((kids k).erase v) ∧ ∀ j, Relinked s k (kids k) j (node j) := by
  have hk := (h.parent k v hv).1
  have hchain := h.chain k hk
  have hnd := h.nodup k
  have hne : ∀ x ∈ kids k, x ≠ regNone := fun x hx => h.ne_none hx
  have hlen := h.length_lt k
  have hother : ∀ j, Relinked s k (kids k) j (s.node j) :=
    fun _ => ⟨rfl, rfl, rfl, fun _ => rfl, fun _ => rfl⟩
  generalize kids k = l at hv hchain hnd hne hlen hother
  cases l with
  | nil => cases hv
  | cons c l =>
    obtain ⟨hc, hrest⟩ := hchain
    simp only [hc]
    by_cases hcv : c = v
    · subst hcv
      rw [if_pos rfl, erase_cons_head, update_self]
      refine ⟨hrest.congr fun x _ => ?_,
        (forall_update_iff s.node (Relinked s k (c :: l))).mpr ⟨?_, fun j _ => hother j⟩⟩
      · obtain rfl | hx := eq_or_ne x k <;> simp [*]
      · exact ⟨rfl, rfl, rfl, fun hne => absurd rfl hne, fun _ => rfl⟩
    · obtain ⟨x, hx, -, heq, hkids⟩ := unlinkFrom_spec regMaxNodes hrest hnd
        ((mem_cons.mp hv).resolve_left (Ne.symm hcv)) (by simp only [length_cons] at hlen; omega)
        fun y hy => hne y (mem_cons_of_mem c hy)
      rw [if_neg hcv, heq, erase_cons_tail (by simpa using hcv)]
      have hfirst :
          (update s.node x { s.node x with nextSibling := (s.node v).nextSibling } k).firstChild =
          c := by
        obtain rfl | hx := eq_or_ne k x <;> simp [*]
      rw [hfirst]
      exact ⟨hkids, (forall_update_iff s.node (Relinked s k (c :: l))).mpr
        ⟨⟨rfl, rfl, rfl, fun _ => rfl, fun hnot => absurd hx hnot⟩, fun j _ => hother j⟩⟩

/-- A child that is unlinked and no longer in use: what lies elsewhere is as it was. -/
theorem dropped (hv : v ∈ kids k) (hkids : Kids node (node k).firstChild ((kids k).erase v))
    (hnodes : ∀ j, Relinked s k (kids k) j (node j)) :
    Sane { s with node := update node v { node v with used := 0 }, dirty := true }
        (update (update kids k ((kids k).erase v)) v []) ∧
      (∀ j, shows (update node v { node v with used := 0 } j) = shows (s.node j)) ∧
      ∀ m c, c ∈ update (update kids k ((kids k).erase v)) v [] m ↔ m ≠ v ∧ c ∈ kids m ∧ c ≠ v := by
  -- nothing but its use changes in the node that is dropped
  have hsame {α : Type} (g : Node → α) (hg : ∀ n, g { n with used := 0 } = g n) :
      ∀ j, g (update node v { node v with used := 0 } j) = g (node j) :=
    (forall_update_iff node fun j n => g n = g (node j)).mpr ⟨hg _, fun _ _ => rfl⟩
  have hshows := fun j => (hsame shows (fun _ => rfl) j).trans (hnodes j).shows
  have hnames : ∀ j, cname _ = cname _ := fun j => congrArg Prod.fst (hshows j)
  have hnext := hsame Node.nextSibling fun _ => rfl
  have hused : ∀ j,
      (update node v { node v with used := 0 } j).used = if j = v then 0 else (s.node j).used :=
    (forall_update_iff node fun j n => n.used = if j = v then 0 else (s.node j).used).mpr
    ⟨(if_pos rfl).symm, fun j hj => (hnodes j).used.trans (if_neg hj).symm⟩
  have hlive : ∀ j,
      live { s with node := update node v { node v with used := 0 }, dirty := true } j ↔
      j ≠ v ∧ live s j := by
    intro j
    simp only [live, hused]
    by_cases hj : j = v <;> simp [hj]
  have hone : ∀ {m c}, c ∈ kids m → c ∈ kids k → m = k := fun hm hk =>
    (h.parent _ _ hm).2.symm.trans (h.parent _ _ hk).2
  have hmem : ∀ m c, c ∈ update (update kids k ((kids k).erase v)) v [] m ↔
      m ≠ v ∧ c ∈ kids m ∧ c ≠ v := by
    intro m c
    by_cases hmv : m = v
    · simp [hmv]
    rw [update_of_ne hmv]
    by_cases hmk : m = k
    · subst hmk
      rw [update_self, (h.nodup m).mem_erase_iff]
      exact ⟨fun hc => ⟨hmv, hc.2, hc.1⟩, fun hc => ⟨hc.2.2, hc.2.1⟩⟩
    · rw [update_of_ne hmk]
      exact ⟨fun hc => ⟨hmv, hc, fun hcv => hmk (hone hc (hcv ▸ hv))⟩, fun hc => hc.2.1⟩
  refine ⟨⟨h.count_le, (hlive 0).mpr ⟨(h.child k v hv).1.symm, h.root⟩, fun j hj => ?_,
      fun m hm => ?_, ?_, fun m c hc => ?_, fun m c hc => ?_, fun m c hc c' hc' hfold => ?_⟩,
    hshows, hmem⟩
  · simp only [hused, h.unused j hj, ite_self]
  · obtain ⟨hmv, hm'⟩ := (hlive m).mp hm
    simp only [hsame Node.firstChild (fun _ => rfl) m]
    rw [update_of_ne hmv]
    by_cases hmk : m = k
    · subst hmk
      rw [update_self]
      exact hkids.congr fun c _ => hnext c
    rw [update_of_ne hmk, (hnodes m).first hmk]
    exact (h.chain m hm').congr
      fun c hc => (hnext c).trans ((hnodes c).next fun hck => hmk (hone hc hck))
  · exact (forall_update_iff _ fun _ => List.Nodup).mpr ⟨nodup_nil, fun m _ =>
      (forall_update_iff kids fun _ => List.Nodup).mpr
        ⟨(h.nodup k).erase v, fun m _ => h.nodup m⟩ m⟩
  · obtain ⟨hmv, hcm, -⟩ := (hmem m c).mp hc
    obtain ⟨hl, hp⟩ := h.parent m c hcm
    exact ⟨(hlive m).mpr ⟨hmv, hl⟩,
      (hsame Node.parent (fun _ => rfl) c).trans ((hnodes c).parent.trans hp)⟩
  · obtain ⟨-, hcm, hcv⟩ := (hmem m c).mp hc
    obtain ⟨hc0, hl, hshort⟩ := h.child m c hcm
    exact ⟨hc0, (hlive c).mpr ⟨hcv, hl⟩, (hnames c).symm ▸ hshort⟩
  · exact h.names m c ((hmem m c).mp hc).2.1 c' ((hmem m c').mp hc').2.1
      (by rwa [← hnames c, ← hnames c'])

/-- Where paths lead once a node is no child any more. -/
theorem leads_without {p : List (List UInt8)} {u : UInt16} (hv : Leads s kids 0 p v)
    (hp : p ≠ []) (hnames : ∀ j, cname (s'.node j) = cname (s.node j))
    (hmem : ∀ m c, c ∈ kids' m ↔ m ≠ v ∧ c ∈ kids m ∧ c ≠ v) :
    Leads s' kids' 0 q u ↔ Leads s kids 0 q u ∧ ¬p.map folded <+: q.map folded := by
  induction q using reverseRecOn generalizing u with
  | nil => exact (and_iff_left fun hnil => hp (map_eq_nil_iff.mp (prefix_nil.mp hnil))).symm
  | append_singleton r seg ih =>
    have hlast : (r ++ [seg]).map folded = r.map folded ++ [folded seg] := map_append
    constructor
    · intro hu
      obtain ⟨m, hm, c, hc, hname, rfl⟩ := leads_append.mp hu
      obtain ⟨-, hc, hne⟩ := (hmem m u).mp hc
      obtain ⟨hm, hnot⟩ := ih.mp hm
      have hu : Leads s kids 0 (r ++ [seg]) u :=
        leads_append.mpr ⟨m, hm, u, hc, hnames u ▸ hname, rfl⟩
      refine ⟨hu, fun hbelow => ?_⟩
      rw [hlast, prefix_concat_iff, ← hlast] at hbelow
      exact hbelow.elim (fun heq => hne (h.leads_unique hu (leads_congr heq hv))) hnot
    rintro ⟨hu, hnot⟩
    obtain ⟨m, hm, c, hc, hname, rfl⟩ := leads_append.mp hu
    have hpart : r.map folded <+: (r ++ [seg]).map folded := hlast ▸ prefix_append ..
    refine leads_append.mpr ⟨m, ih.mpr ⟨hm, fun hbelow => hnot (hbelow.trans hpart)⟩, u,
      (hmem m u).mpr ⟨?_, hc, ?_⟩, (hnames u).symm ▸ hname, rfl⟩
    · rintro rfl
      exact hnot (h.leads_inj hv hm ▸ hpart)
    · rintro rfl
      exact hnot (h.leads_inj hv hu ▸ prefix_refl _)

/-- What was deleted is gone with all below it, and nothing else is. -/
theorem delete (hp : ∀ seg ∈ segments path, 0 ∉ seg) (h0 : 0 ∉ name) :
    ∃ kids', Sane (s.regDelete path name).1 kids' ∧
      (∀ j, shows ((s.regDelete path name).1.node j) = shows (s.node j)) ∧
      ∀ q u, Leads (s.regDelete path name).1 kids' 0 q u ↔
        Leads s kids 0 q u ∧ ¬(segments path ++ [name]).map folded <+: q.map folded := by
  -- where the path leads nowhere there is nothing to delete
  have hnowhere : (∀ v, ¬Leads s kids 0 (segments path ++ [name]) v) → ∃ kids',
      Sane s kids' ∧ (∀ j, shows (s.node j) = shows (s.node j)) ∧ ∀ q u, Leads s kids' 0 q u ↔
      Leads s kids 0 q u ∧ ¬(segments path ++ [name]).map folded <+: q.map folded :=
    fun hno => ⟨kids, h, fun _ => rfl, fun q u => ⟨fun hu => ⟨hu, fun hbelow =>
      (leads_of_below hbelow hu).elim hno⟩, And.left⟩⟩
  unfold regDelete
  rcases h.keyFrom_find hp h.root with ⟨hnone, hno⟩ | hlk
  · rw [regKey, if_pos hnone]
    exact hnowhere fun v hv => (leads_append.mp hv).elim fun u hu => hno u hu.1
  have hk := h.leads_live h.root hlk
  rw [regKey, if_neg (hk.ne_none h.count_le)]
  rcases h.find hk h0 with ⟨hnone, hno⟩ | ⟨hv, hname⟩
  · rw [show (if s.regFindChild (keyFrom false s 0 (segments path)).2 name = regNone then (s, false)
        else _) = (s, false) from if_pos hnone]
    refine hnowhere fun v hv => ?_
    obtain ⟨u, hu, c, hc, hcn, -⟩ := leads_append.mp hv
    exact hno c (h.leads_unique hu hlk ▸ hc) hcn
  simp only [if_neg (h.ne_none hv)]
  have hlv : Leads s kids 0 (segments path ++ [name])
      (s.regFindChild (keyFrom false s 0 (segments path)).2 name) :=
    leads_append.mpr ⟨_, hlk, _, hv, hname, rfl⟩
  obtain ⟨hkids, hnodes⟩ := h.unlink hv
  obtain ⟨h', hshows, hmem⟩ := h.dropped hv hkids hnodes
  exact ⟨_, h', hshows,
    fun q u => h.leads_without hlv (by simp) (fun j => congrArg Prod.fst (hshows j)) hmem⟩

end Sane

end Reg

end Vextro.Registry
