import AsterKernel.Process.Groups

/-!
# `Process.Family` — parents, children and zombies

What the operations do to the part of a process that `exit` and `wait` look at: its parent, its children and its
status. The moves between groups do not touch it.
-/

namespace AsterKernel.Process

open Lib Lib.Comp Tables Function BTreeSet

variable {s t : Tables} {pid g σ q child parent : Nat}

/-! ## What does not depend on groups -/

def Proc.kin (p : Proc) : Option Nat × BTreeSet × Status := (p.parent, p.children, p.status)

def Tables.kin (s : Tables) (pid : Nat) : Option (Option Nat × BTreeSet × Status) :=
    (s.processes.get? pid).map Proc.kin

/-- `Process::parent`, of a parent that is alive. -/
def parentOf (s : Tables) (pid : Nat) : Option Nat := (s.processes.get? pid).bind Proc.parent

theorem childrenOf_eq (s : Tables) (q : Nat) :
    childrenOf s q = ((s.kin q).map fun k => k.2.1).getD BTreeSet.empty := by
  unfold childrenOf kin
  cases s.processes.get? q with
  | none | some p => rfl

theorem parentOf_eq (s : Tables) (q : Nat) : parentOf s q = (s.kin q).bind fun k => k.1 := by
  unfold parentOf kin
  cases s.processes.get? q with
  | none | some p => rfl

theorem isZombie_eq (s : Tables) (q : Nat) : isZombie s q = (s.kin q).any fun k => match k.2.2 with
    | .runnable => false
    | .zombie _ => true := by
  unfold isZombie kin
  cases s.processes.get? q with
  | none | some p => rfl

section

variable (h : t.kin q = s.kin q)
include h

theorem childrenOf_kin : childrenOf t q = childrenOf s q := by
  rw [childrenOf_eq, h, ← childrenOf_eq]

theorem parentOf_kin : parentOf t q = parentOf s q := by
  rw [parentOf_eq, h, ← parentOf_eq]

theorem isZombie_kin : isZombie t q = isZombie s q := by
  rw [isZombie_eq, h, ← isZombie_eq]

theorem isSome_kin : (t.processes.get? q).isSome = (s.processes.get? q).isSome := by
  have := congrArg Option.isSome h
  simpa only [kin, Option.isSome_map] using this

end

theorem kin_updProc {f : Proc → Proc} (hf : ∀ p, (f p).kin = p.kin) : (s.updProc pid f).kin = s.kin := by
  funext q
  unfold kin
  rw [updProc_get?]
  split
  · subst q
    rw [Option.map_map, Function.comp_def]
    simp only [hf]
  · rfl

theorem kin_join : (s.join pid g).kin = s.kin := kin_updProc fun _ => rfl

theorem kin_leave (keep : Bool) : (s.leave keep pid g σ).kin = s.kin := by
  have hdrop : (s.drop pid g).kin = s.kin := kin_updProc fun _ => rfl
  rw [leave_eq]
  split
  · unfold kin
    rw [dropGroup_eq]
    exact hdrop
  · exact hdrop

/-! ## Updates of one process -/

section UpdProc

variable {f : Proc → Proc}

theorem childrenOf_updProc (h : (s.processes.get? pid).isSome) : childrenOf (s.updProc pid f) q =
    if q = pid then ((s.processes.get? pid).map fun p => (f p).children).getD empty else childrenOf s q := by
  obtain ⟨p, hp⟩ := Option.isSome_iff_exists.mp h
  unfold childrenOf
  rw [updProc_get?, hp]
  by_cases hq : q = pid
  · rw [if_pos hq, if_pos hq]
    rfl
  · rw [if_neg hq, if_neg hq]

/-- A field that the update leaves alone. -/
theorem field_updProc {α : Type} (field : Option Proc → α) (hf : ∀ p, field (some (f p)) = field (some p)) :
    field ((s.updProc pid f).processes.get? q) = field (s.processes.get? q) := by
  rw [updProc_get?]
  by_cases hq : q = pid
  · subst hq
    rw [if_pos rfl]
    cases s.processes.get? q with
    | none => rfl
    | some p => exact hf p
  · rw [if_neg hq]

theorem childrenOf_updProc_of (hf : ∀ p, (f p).children = p.children) :
    childrenOf (s.updProc pid f) q = childrenOf s q := by
  rw [childrenOf_eq, childrenOf_eq]
  refine field_updProc (fun o => ((o.map Proc.kin).map fun k => k.2.1).getD _) fun p => ?_
  exact hf p

theorem parentOf_updProc_of (hf : ∀ p, (f p).parent = p.parent) : parentOf (s.updProc pid f) q = parentOf s q :=
  field_updProc (fun o => o.bind Proc.parent) hf

theorem isZombie_updProc_of (hf : ∀ p, (f p).status = p.status) : isZombie (s.updProc pid f) q = isZombie s q := by
  refine field_updProc (fun o => o.any Proc.isZombie) fun p => ?_
  show (f p).isZombie = p.isZombie
  rw [Proc.isZombie, hf, Proc.isZombie]

theorem isSome_updProc : ((s.updProc pid f).processes.get? q).isSome = (s.processes.get? q).isSome :=
  field_updProc Option.isSome fun _ => rfl

end UpdProc

/-! ## Exit -/

variable {term : TermStatus}

theorem isZombie_setZombie : isZombie (setZombie pid term s) q =
    if q = pid then (s.processes.get? pid).isSome else isZombie s q := by
  unfold setZombie isZombie
  rw [updProc_get?]
  split
  · cases s.processes.get? pid with
    | none | some p => rfl
  · rfl

theorem childrenOf_setZombie : childrenOf (setZombie pid term s) q = childrenOf s q :=
  childrenOf_updProc_of fun _ => rfl

theorem parentOf_setZombie : parentOf (setZombie pid term s) q = parentOf s q :=
  parentOf_updProc_of fun _ => rfl

theorem giveToInit_children (hinit : (s.processes.get? INIT_PROCESS_PID).isSome) : childrenOf (giveToInit child s) q =
    if q = INIT_PROCESS_PID then (childrenOf s q).insert child else childrenOf s q := by
  refine (childrenOf_updProc_of ?_).trans ?_
  · exact fun _ => rfl
  rw [childrenOf_updProc hinit]
  obtain ⟨p, hp⟩ := Option.isSome_iff_exists.mp hinit
  by_cases hq : q = INIT_PROCESS_PID
  · subst hq
    rw [if_pos rfl, if_pos rfl]
    unfold childrenOf
    rw [hp]
    rfl
  · rw [if_neg hq, if_neg hq]

theorem giveToInit_parent (hchild : (s.processes.get? child).isSome) : parentOf (giveToInit child s) q =
    if q = child then some INIT_PROCESS_PID else parentOf s q := by
  unfold giveToInit
  by_cases hq : q = child
  · subst hq
    rw [if_pos rfl]
    unfold parentOf
    rw [updProc_get?, if_pos rfl]
    have hsome : ((s.updProc INIT_PROCESS_PID fun p => { p with children := p.children.insert q }).processes.get?
        q).isSome := isSome_updProc.trans hchild
    obtain ⟨p, hp⟩ := Option.isSome_iff_exists.mp hsome
    rw [hp]
    rfl
  · rw [if_neg hq]
    have hone : parentOf (s.updProc INIT_PROCESS_PID fun p => { p with children := p.children.insert child }) q =
        parentOf s q := parentOf_updProc_of fun _ => rfl
    rw [← hone]
    unfold parentOf
    rw [updProc_get?, if_neg hq]

theorem giveToInit_isZombie : isZombie (giveToInit child s) q = isZombie s q := by
  refine (isZombie_updProc_of ?_).trans (isZombie_updProc_of ?_)
  · exact fun _ => rfl
  · exact fun _ => rfl

theorem giveToInit_isSome : ((giveToInit child s).processes.get? q).isSome = (s.processes.get? q).isSome :=
  isSome_updProc.trans isSome_updProc

section

variable (children : List Nat)

theorem giveAll_isSome : ((giveAll children s).processes.get? q).isSome = (s.processes.get? q).isSome := by
  induction children generalizing s with
  | nil => rfl
  | cons child rest ih => exact ih.trans giveToInit_isSome

theorem giveAll_isZombie : isZombie (giveAll children s) q = isZombie s q := by
  induction children generalizing s with
  | nil => rfl
  | cons child rest ih => exact ih.trans giveToInit_isZombie

theorem giveAll_processTable : (giveAll children s).processTable = s.processTable := by
  induction children generalizing s with
  | nil => rfl
  | cons child rest ih => exact ih.trans (updProc_processTable.trans updProc_processTable)

theorem giveAll_children (hinit : (s.processes.get? INIT_PROCESS_PID).isSome) (c : Nat) :
    (childrenOf (giveAll children s) q).contains c = true ↔
      (childrenOf s q).contains c = true ∨ (q = INIT_PROCESS_PID ∧ c ∈ children) := by
  induction children generalizing s with
  | nil => simp [giveAll]
  | cons child rest ih =>
    have hrest := ih (s := giveToInit child s) (by rw [giveToInit_isSome]; exact hinit)
    refine hrest.trans ?_
    rw [giveToInit_children hinit]
    split
    · rw [contains_insert]
      simp only [*, Bool.or_eq_true, decide_eq_true_eq, List.mem_cons, true_and]
      tauto
    · simp only [*, false_and, or_false]

/-- Each child that is handed over has init as its parent. -/
theorem giveAll_parent (hall : ∀ c ∈ children, (s.processes.get? c).isSome) :
    parentOf (giveAll children s) q = if q ∈ children then some INIT_PROCESS_PID else parentOf s q := by
  induction children generalizing s with
  | nil => rfl
  | cons child rest ih =>
    have hrest := ih (s := giveToInit child s) fun c hc => by
      rw [giveToInit_isSome]
      exact hall c (List.mem_cons_of_mem _ hc)
    refine hrest.trans ?_
    rw [giveToInit_parent (hall child List.mem_cons_self)]
    by_cases hq : q ∈ rest
    · rw [if_pos hq, if_pos (List.mem_cons_of_mem _ hq)]
    · rw [if_neg hq]
      simp only [List.mem_cons, hq, or_false]

end

theorem handOver_isSome : ((handOver pid s).processes.get? q).isSome = (s.processes.get? q).isSome := by
  unfold handOver
  split
  · exact isSome_updProc.trans (giveAll_isSome _)
  · rfl

theorem handOver_isZombie : isZombie (handOver pid s) q = isZombie s q := by
  unfold handOver
  split
  · refine (isZombie_updProc_of ?_).trans (giveAll_isZombie _)
    exact fun _ => rfl
  · rfl

theorem handOver_processTable : (handOver pid s).processTable = s.processTable := by
  unfold handOver
  split
  · exact updProc_processTable.trans (giveAll_processTable _)
  · rfl

/-- **The children of a process that exits are those of the init process.** -/
theorem handOver_children (hpid : (s.processes.get? pid).isSome) (hinit : (s.processes.get? INIT_PROCESS_PID).isSome)
    (hover : handsOver s pid = true) (c : Nat) : (childrenOf (handOver pid s) q).contains c = true ↔ q ≠ pid ∧
      ((childrenOf s q).contains c = true ∨ (q = INIT_PROCESS_PID ∧ (childrenOf s pid).contains c = true)) := by
  unfold handOver
  rw [if_pos hover]
  rw [childrenOf_updProc (by rw [giveAll_isSome]; exact hpid)]
  by_cases hq : q = pid
  · subst hq
    rw [if_pos rfl]
    have hnone : ((Option.map (fun p : Proc => { p with children := BTreeSet.empty }.children)
        ((giveAll (childrenOf s q).toList s).processes.get? q)).getD BTreeSet.empty).contains c = false := by
      cases (giveAll (childrenOf s q).toList s).processes.get? q with
      | none | some p => rfl
    refine ⟨fun h => absurd (hnone.symm.trans h) nofun, fun h => absurd rfl h.1⟩
  · rw [if_neg hq]
    refine (giveAll_children _ hinit c).trans ?_
    rw [BTreeSet.mem_toList_iff]
    exact ⟨fun h => ⟨hq, h⟩, fun h => h.2⟩

theorem handOver_parent (hall : ∀ c, (childrenOf s pid).contains c = true → (s.processes.get? c).isSome)
    (hover : handsOver s pid = true) : parentOf (handOver pid s) q =
      if (childrenOf s pid).contains q = true then some INIT_PROCESS_PID else parentOf s q := by
  unfold handOver
  rw [if_pos hover]
  refine (parentOf_updProc_of ?_).trans ?_
  · exact fun _ => rfl
  refine (giveAll_parent _ fun c hc => hall c (mem_toList_iff.mp hc)).trans ?_
  simp only [mem_toList_iff]

theorem handOver_of_not (hover : handsOver s pid = false) : handOver pid s = s := by
  unfold handOver
  rw [hover]
  rfl

/-! ## Fork -/

/-- A child is a new process with its parent. -/
theorem fork_ok (h : fork pid s = .ok child t) :
    child = s.nextTid ∧ (s.processes.get? pid).isSome ∧ t.processTable = s.processTable.insert child ∧
      (∃ g, t.link = update s.link child (some g)) ∧ t.kin = update (update s.kin pid
        ((s.processes.get? pid).map fun p => (p.parent, p.children.insert child, p.status)))
        child (some (some pid, empty, .runnable)) := by
  unfold fork allocateTid setParentAndGroup at h
  obtain ⟨_, _, htid, h⟩ := bind_ok.mp h
  rw [get_bind, modify_bind, pure_ok] at htid
  obtain ⟨rfl, rfl⟩ := htid
  obtain ⟨_, _, hset, h⟩ := bind_ok.mp h
  obtain ⟨rfl, rfl⟩ := pure_ok.mp h
  rw [get_bind] at hset
  obtain ⟨g, hg, hset⟩ := (bind_ok_of expect_ok).mp hset
  rw [modify_bind, modify_bind, modify_ok] at hset
  subst hset
  have hpid := isSome_of_link (link_of_processGroup hg)
  refine ⟨rfl, hpid, by simp [join, setLink, updGroup], ⟨g, ?_⟩, ?_⟩
  · refine (setLink_link (.inr ?_)).trans ?_
    · show ((BTreeMap.insert _ _ _).get? _).isSome
      rw [BTreeMap.get?_insert, if_pos rfl]
      rfl
    · funext q
      by_cases hq : q = s.nextTid
      · subst hq
        rw [update_self, update_self]
      · rw [update_of_ne hq, update_of_ne hq]
        have hchildren : Alike { s with nextTid := (s.nextTid + 1) % 2 ^ 32 }
            (updProc pid (fun p => { p with children := p.children.insert s.nextTid }) _) :=
              alike_updProc fun _ => rfl
        refine Eq.trans ?_ (congrFun hchildren.link q)
        show (BTreeMap.get? (BTreeMap.insert _ _ _) q).bind _ = _
        rw [BTreeMap.get?_insert, if_neg hq]
        rfl
  rw [kin_join]
  funext q
  unfold kin
  dsimp only
  rw [BTreeMap.get?_insert]
  by_cases hq : q = s.nextTid
  · subst hq
    rw [if_pos rfl, update_self]
    rfl
  · rw [if_neg hq, update_of_ne hq, updProc_get?]
    by_cases hqp : q = pid
    · subst hqp
      rw [if_pos rfl, update_self, Option.map_map]
      rfl
    · rw [if_neg hqp, update_of_ne hqp]

/-! ## Reaping -/

theorem removeChild_ok {u : Unit} (h : removeChild parent child s = .ok u t) :
    (childrenOf s parent).contains child = true ∧ isZombie s child = true ∧
      t = s.updProc parent fun p => { p with children := p.children.remove child } := by
  unfold removeChild at h
  rw [get_bind, assert_bind_ok, modify_bind] at h
  obtain ⟨hin, h⟩ := h
  obtain ⟨hz, rfl⟩ := assert_ok.mp h
  exact ⟨hin, hz, rfl⟩

/-- A zombie child can be taken out of the map. -/
theorem removeChild_panic (hin : (childrenOf s parent).contains child = true) (hz : isZombie s child = true) :
    removeChild parent child s ≠ .panic := by
  unfold removeChild
  rw [get_bind, hin]
  show assert (isZombie s child) _ ≠ _
  rw [hz]
  exact nofun

theorem removeChild_children (h : (s.processes.get? parent).isSome) (c : Nat) :
    (childrenOf (s.updProc parent fun p => { p with children := p.children.remove child }) q).contains c = true ↔
      (childrenOf s q).contains c = true ∧ ¬ (q = parent ∧ c = child) := by
  rw [childrenOf_updProc h]
  obtain ⟨p, hp⟩ := Option.isSome_iff_exists.mp h
  by_cases hq : q = parent
  · subst hq
    rw [if_pos rfl, hp]
    have hchildren : childrenOf s q = p.children := by
      unfold childrenOf
      rw [hp]
    rw [hchildren]
    show (p.children.remove child).contains c = true ↔ _
    rw [contains_remove]
    simp only [Bool.and_eq_true, Bool.not_eq_true', decide_eq_false_iff_not, true_and]
    tauto
  · rw [if_neg hq]
    simp only [hq, false_and, not_false_eq_true, and_true]

theorem removeFromTables_ok {code : UInt32} (h : removeFromTables child s = .ok code t) :
    t.kin = s.kin ∧ t.processTable = s.processTable.remove child ∧ t.link = update s.link child none := by
  unfold removeFromTables at h
  rw [get_bind] at h
  obtain ⟨g, -, h⟩ := (bind_ok_of expect_ok).mp h
  obtain ⟨σ, -, h⟩ := (bind_ok_of expect_ok).mp h
  rw [modify_bind, modify_bind, modify_bind] at h
  obtain ⟨-, rfl⟩ := expect_ok.mp h
  refine ⟨?_, ?_, ?_⟩
  · exact kin_leave (s := s.updSession σ (Session.removeProcess child)) false
  · dsimp only
    rw [leave_processTable]
    rfl
  · exact leave_link (s := s.updSession σ (Session.removeProcess child)) false

theorem any_of_get? {m : BTreeMap Nat} {k v : Nat} (h : m.get? k = some v) : m.entries.any
    (fun e => e.2 == v) = true :=
  List.any_eq_true.mpr ⟨(k, v), BTreeMap.mem_of_get? h, beq_self_eq_true v⟩

theorem processGroup_of_link (h : s.Consistent none) (hlink : s.link pid = some g) : s.processGroup pid = some g := by
  have hin : s.groupTable.get? (s.pgidOf g) = some g := h.procs.mem_table hlink
  unfold processGroup
  rw [hlink, Option.filter_some_pos]
  unfold groupAlive
  rw [any_of_get? hin, Bool.true_or]

theorem groupSession_of_link (h : s.Consistent none) (hlink : s.link pid = some g) : (s.groupSession g).isSome := by
  have hin : (s.groups g).isEmpty = false := h.procs.not_empty hlink
  obtain ⟨σ, hσ⟩ := Option.ne_none_iff_exists'.mp (h.linked g hin)
  have hmem : s.grps.link g = some σ := (link_grps hin).trans hσ
  unfold groupSession
  rw [hσ, Option.filter_some_pos]
  · rfl
  · exact any_of_get? (h.grps.mem_table hmem)

theorem exitCode_of_zombie (hz : isZombie s pid = true) : (exitCode s pid).isSome := by
  unfold isZombie at hz
  unfold exitCode
  cases hp : s.processes.get? pid with
  | none =>
    rw [hp] at hz
    cases hz
  | some p =>
    rw [hp] at hz
    have hz : p.isZombie = true := hz
    show p.exitCode.isSome
    unfold Proc.isZombie at hz
    unfold Proc.exitCode
    cases hstatus : p.status with
    | runnable =>
      rw [hstatus] at hz
      cases hz
    | zombie term => rfl

/-- **The second step of reaping finds what it removes.** -/
theorem removeFromTables_total (h : s.Consistent none) (hlink : s.link child ≠ none) (hz : isZombie s child = true) :
    removeFromTables child s ≠ .panic := by
  obtain ⟨g, hg⟩ := Option.ne_none_iff_exists'.mp hlink
  obtain ⟨σ, hσ⟩ := Option.isSome_iff_exists.mp (groupSession_of_link h hg)
  obtain ⟨code, hcode⟩ := Option.isSome_iff_exists.mp (exitCode_of_zombie hz)
  unfold removeFromTables
  rw [get_bind, processGroup_of_link h hg, bind_eq, expect_some]
  dsimp only
  rw [hσ, bind_eq, expect_some]
  dsimp only
  rw [modify_bind, modify_bind, modify_bind, hcode]
  exact nofun

/-! ## Families -/

/-- Children know their parents. -/
structure Kin (s : Tables) : Prop where
  objects : ∀ pid, s.processTable.contains pid = true → (s.processes.get? pid).isSome
  parent : ∀ p c, (childrenOf s p).contains c = true → parentOf s c = some p

section Kin

variable {pid p c child : Nat}

theorem isSome_of_parentOf (h : parentOf s c = some p) : (s.processes.get? c).isSome := by
  obtain ⟨proc, hproc, -⟩ := Option.bind_eq_some_iff.mp h
  rw [hproc]
  rfl

theorem isSome_of_childrenOf (h : (childrenOf s p).contains c = true) : (s.processes.get? p).isSome := by
  unfold childrenOf at h
  cases hp : s.processes.get? p with
  | none =>
    rw [hp] at h
    cases h
  | some proc => rfl

theorem isSome_of_isZombie (h : isZombie s p = true) : (s.processes.get? p).isSome := by
  obtain ⟨proc, hproc, -⟩ := (Option.any_eq_true ..).mp h
  rw [hproc]
  rfl

theorem Kin.congr (h : Kin s) (hkin : t.kin = s.kin)
    (htable : ∀ q, t.processTable.contains q = true → s.processTable.contains q = true) : Kin t where
  objects q hq := by
    rw [isSome_kin (congrFun hkin q)]
    exact h.objects q (htable q hq)
  parent p c hc := by
    rw [childrenOf_kin (congrFun hkin p)] at hc
    rw [parentOf_kin (congrFun hkin c)]
    exact h.parent p c hc

theorem Kin.setZombie (h : Kin s) : Kin (setZombie pid term s) where
  objects q hq := by
    unfold Process.setZombie at hq ⊢
    rw [updProc_processTable] at hq
    rw [isSome_updProc]
    exact h.objects q hq
  parent p c hc := by
    rw [childrenOf_setZombie] at hc
    rw [parentOf_setZombie]
    exact h.parent p c hc

/-- What is handed over leaves one map of children for the other. -/
theorem Kin.handOver (h : Kin s) (hpid : (s.processes.get? pid).isSome) : Kin (handOver pid s) where
  objects q hq := by
    rw [handOver_processTable] at hq
    rw [handOver_isSome]
    exact h.objects q hq
  parent p c hc := by
    cases hover : handsOver s pid with
    | false =>
      rw [handOver_of_not hover] at hc ⊢
      exact h.parent p c hc
    | true =>
      have hinit := h.objects _ (Bool.and_eq_true_iff.mp hover).2
      rw [handOver_parent (fun c hc => isSome_of_parentOf (h.parent pid c hc)) hover]
      obtain ⟨hne, hold | ⟨rfl, hmoved⟩⟩ := (handOver_children hpid hinit hover c).mp hc
      · -- a child of another process is not one of this one
        have hnot : (childrenOf s pid).contains c ≠ true := by
          intro hin
          have hsame := (h.parent p c hold).symm.trans (h.parent pid c hin)
          exact hne (Option.some.inj hsame)
        rw [if_neg hnot]
        exact h.parent p c hold
      · rw [if_pos hmoved]

theorem Kin.removeChild (h : Kin s) (hp : (s.processes.get? p).isSome) :
    Kin (s.updProc p fun proc => { proc with children := proc.children.remove child }) where
  objects q hq := by
    rw [updProc_processTable] at hq
    rw [isSome_updProc]
    exact h.objects q hq
  parent q c hc := by
    have hin := ((removeChild_children hp c).mp hc).1
    refine Eq.trans (parentOf_updProc_of ?_) (h.parent q c hin)
    exact fun _ => rfl

/-- The families after a fork. -/
theorem fork_children (h : fork pid s = .ok child t) (hfresh : s.processes.get? s.nextTid = none) (q c : Nat) :
    (childrenOf t q).contains c = true ↔ (childrenOf s q).contains c = true ∧ q ≠ child ∨ (q = pid ∧ c = child) := by
  obtain ⟨rfl, hpid, -, -, hkin⟩ := fork_ok h
  have hne : pid ≠ s.nextTid := by
    rintro rfl
    rw [hfresh] at hpid
    cases hpid
  rw [childrenOf_eq t, hkin]
  by_cases hq : q = s.nextTid
  · subst hq
    rw [update_self]
    simp only [Option.map_some, Option.getD_some, contains_empty, Bool.false_eq_true, ne_eq, not_true_eq_false,
      and_false, false_or, false_iff, not_and]
    exact fun hq => absurd hq.symm hne
  · rw [update_of_ne hq]
    by_cases hqp : q = pid
    · subst hqp
      rw [update_self]
      obtain ⟨p, hp⟩ := Option.isSome_iff_exists.mp hpid
      have hchildren : childrenOf s q = p.children := by
        unfold childrenOf
        rw [hp]
      rw [hp, hchildren]
      show (p.children.insert s.nextTid).contains c = true ↔ _
      rw [contains_insert]
      simp only [Bool.or_eq_true, decide_eq_true_eq, ne_eq, hq, not_false_eq_true, and_true, true_and]
      tauto
    · rw [update_of_ne hqp, ← childrenOf_eq]
      simp only [ne_eq, hq, not_false_eq_true, and_true, hqp, false_and, or_false]

theorem fork_field {α : Type} (field : Option (Option Nat × BTreeSet × Status) → α)
    (hfield : ∀ p b b' st, field (some (p, b, st)) = field (some (p, b', st))) (h : fork pid s = .ok child t)
    (q : Nat) : field (t.kin q) = if q = child then field (some (some pid, empty, .runnable)) else field (s.kin q) := by
  obtain ⟨rfl, hpid, -, -, hkin⟩ := fork_ok h
  rw [hkin]
  by_cases hq : q = s.nextTid
  · rw [hq, update_self, if_pos rfl]
  · rw [update_of_ne hq, if_neg hq]
    by_cases hqp : q = pid
    · subst hqp
      rw [update_self, kin]
      cases s.processes.get? q with
      | none => rfl
      | some p => exact hfield ..
    · rw [update_of_ne hqp]

section

variable (h : fork pid s = .ok child t)
include h

theorem fork_parent (q : Nat) : parentOf t q = if q = child then some pid else parentOf s q := by
  rw [parentOf_eq, parentOf_eq]
  exact fork_field (fun o => o.bind fun k => k.1) (fun _ _ _ _ => rfl) h q

theorem fork_isSome (q : Nat) : (t.processes.get? q).isSome = (decide (q = child) || (s.processes.get? q).isSome) := by
  have hmap : ∀ u : Tables, (u.processes.get? q).isSome = (u.kin q).isSome := by simp [kin]
  rw [hmap, hmap, fork_field Option.isSome (fun _ _ _ _ => rfl) h q]
  split
  case isTrue hq => simp [hq]
  case isFalse hq => simp [hq]

theorem fork_isZombie (hfresh : s.processes.get? s.nextTid = none) (q : Nat) : isZombie t q = isZombie s q := by
  rw [isZombie_eq, fork_field (Option.any _) (fun _ _ _ _ => rfl) h q, ← isZombie_eq]
  split
  case isTrue hq =>
    obtain ⟨rfl, -⟩ := fork_ok h
    rw [hq, isZombie, hfresh]
    rfl
  case isFalse => rfl

end

theorem Kin.fork (h : Kin s) (hfork : fork pid s = .ok child t) (hfresh : s.processes.get? s.nextTid = none) :
    Kin t where
  objects q hq := by
    obtain ⟨-, -, htable, -, -⟩ := fork_ok hfork
    rw [htable, contains_insert, Bool.or_eq_true] at hq
    rw [fork_isSome hfork, Bool.or_eq_true]
    exact hq.imp id (h.objects q)
  parent q c hc := by
    have hchild : child = s.nextTid := (fork_ok hfork).1
    rw [fork_parent hfork]
    rcases (fork_children hfork hfresh q c).mp hc with ⟨hc, -⟩ | ⟨rfl, rfl⟩
    · have hparent := h.parent q c hc
      have hne : c ≠ child := by
        rintro rfl
        have hsome := isSome_of_parentOf hparent
        rw [hchild, hfresh] at hsome
        cases hsome
      rw [if_neg hne]
      exact hparent
    · rw [if_pos rfl]

end Kin

end AsterKernel.Process
