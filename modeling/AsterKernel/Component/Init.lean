import Mathlib.Data.List.Nodup
import Mathlib.Logic.Relation
import AsterKernel.Lib.Usize

/-!
# `Component.Init` — the order in which components are initialised

The macro `parse_metadata` computes a priority for every component package: one more than the highest priority
among the packages it depends on, by a recursion that remembers its results and starts from the packages in the
order of a hash map. `init_all` matches the registered init functions with the packages by their paths, sorts
them by priority and calls them.

The recursion carries fuel; a chain of dependencies cannot be longer than the fuel it needs. Texts are lists of
characters, maps are functions.
-/

namespace AsterKernel.Component

open Lib Lib.Comp Relation Function List

abbrev Text := List Char

/-! ## Priorities -/

/-- What `cargo metadata` says about a package; `path` is taken out of its id. -/
structure Package where
  name : Text
  dependencies : List Text
  path : Text
deriving DecidableEq, Repr

/-- `is_component`: the package depends on the crate `component`. -/
def isComponent (package : Package) : Bool :=
  package.dependencies.contains ['c', 'o', 'm', 'p', 'o', 'n', 'e', 'n', 't']

def getComponentsName (packages : List Package) : List Text := (packages.filter isComponent).map Package.name

/-- The component packages, with the dependencies that are components (taken from the end of the list). -/
def componentPackages (packages : List Package) : List Package :=
  (packages.filter fun q => (getComponentsName packages).contains q.name).map fun q =>
    { q with dependencies := q.dependencies.reverse.filter (getComponentsName packages).contains }

/-- `component_packages_map`: of two packages of one name the later one stays. -/
def packagesMap (packages : List Package) (name : Text) : Option Package :=
  packages.reverse.find? fun q => q.name == name

/-- The priorities found so far. -/
abbrev Prioritys := Text → Option Nat

/-- The loop over the dependencies in `calculate_priority`: one more than the priority of each, as a `u16`. -/
def lowestPriority (p : Profile) (calculate : Text → Prioritys → Option (Nat × Prioritys)) :
    List Text → Nat → Prioritys → Option (Nat × Prioritys)
  | [], lowest, prioritys => some (lowest, prioritys)
  | depend :: rest, lowest, prioritys => do
    let (priority, prioritys') ← calculate depend prioritys
    let next ← p.add (2 ^ 16) priority 1
    lowestPriority p calculate rest (max lowest next) prioritys'

def calculatePriority (p : Profile) (mapping : Text → Option Package) :
    Nat → Text → Prioritys → Option (Nat × Prioritys)
  | 0, _, _ => none
  | fuel + 1, node, prioritys =>
    match prioritys node with
    | some priority => some (priority, prioritys)
    | none => do
      let package ← mapping node
      let (lowest, prioritys') ← lowestPriority p (calculatePriority p mapping fuel) package.dependencies 0 prioritys
      return (lowest, Function.update prioritys' node (some lowest))

/-- The loop over the packages, in the order of the hash map. -/
def calculateAll (p : Profile) (fuel : Nat) (mapping : Text → Option Package) :
    List Text → Prioritys → Option Prioritys
  | [], prioritys => some prioritys
  | name :: rest, prioritys =>
    if (prioritys name).isSome then calculateAll p fuel mapping rest prioritys
    else do
      let (_, prioritys') ← calculatePriority p mapping fuel name prioritys
      calculateAll p fuel mapping rest prioritys'

/-- `ComponentInfo`, with the init functions of type `F`. -/
structure ComponentInfo (F : Type) where
  name : Text
  path : Text
  priority : Nat
  function : Option F
deriving DecidableEq, Repr

/-- The information about one package. -/
def componentInfo {F : Type} (prioritys : Prioritys) (package : Package) : Option (ComponentInfo F) :=
  (prioritys package.name).map fun priority => ⟨package.name, package.path, priority, none⟩

/-- `component_generate`, for the order `order` of the hash map. -/
def componentGenerate {F : Type} (p : Profile) (fuel : Nat) (order : List Text) (packages : List Package) :
    Option (List (ComponentInfo F)) := do
  let prioritys ← calculateAll p fuel (packagesMap (componentPackages packages)) order fun _ => none
  (componentPackages packages).mapM (componentInfo prioritys)

/-! ## Initialisation -/

/-- `ComponentRegistry`: an init function and the path of its source file. -/
structure ComponentRegistry (F : Type) where
  function : F
  path : Text
deriving DecidableEq, Repr

/-- `str::find`. -/
def find (pattern text : Text) : Option Nat :=
  (List.range (text.length + 1)).find? fun i => pattern.isPrefixOf (text.drop i)

/-- `str::trim_end_matches` for a text: remove it from the end as often as it stands there. -/
def trimEndMatches (pattern : Text) : Nat → Text → Text
  | 0, text => text
  | n + 1, text =>
    if pattern ≠ [] ∧ pattern.isSuffixOf text then
      trimEndMatches pattern n (text.take (text.length - pattern.length))
    else text

/-- The directory of a component, from the path of a file in its `src/` or `tests/`; nothing if there is neither. -/
def componentDir (path : Text) : Option Text :=
  let text := path.map fun c => if c = '\\' then '/' else c
  let dir := match find ['s', 'r', 'c', '/'] text with
    | some i => some (trimEndMatches (text.drop i) text.length text)
    | none => match find ['t', 'e', 's', 't', 's', '/'] text with
      | some i => some (trimEndMatches (text.drop i) text.length text)
      | none => none
  dir.map fun text => (text.reverse.dropWhile (· == '/')).reverse

inductive ComponentSystemInitError where
  | fileNotValid
  | notIncludeAllComponent (path : Text)
deriving DecidableEq, Repr

/-- The components that are not matched yet, by path. -/
abbrev Components (F : Type) := Text → Option (ComponentInfo F)

def parseInput {F : Type} (components : List (ComponentInfo F)) : Components F :=
  components.foldl (fun out component => Function.update out component.path (some component)) fun _ => none

/-- The loop over the registrations in `match_and_call`. -/
def matchEach {F : Type} : List (ComponentRegistry F) →
    Comp (Components F) ComponentSystemInitError (List (ComponentInfo F))
  | [] => pure []
  | registry :: rest => do
    let path ← expect (componentDir registry.path)
    match (← get) path with
    | none => fail (.notIncludeAllComponent path)
    | some info =>
      modify fun components => Function.update components path none
      let infos ← matchEach rest
      return { info with function := some registry.function } :: infos

/-- The calls, in order; what a function returns is only logged. -/
def callEach {F σ ε : Type} : List (ComponentInfo F) → Comp σ ε (List (ComponentInfo F × F))
  | [] => pure []
  | info :: rest => do
    let function ← expect info.function
    let calls ← callEach rest
    return (info, function) :: calls

/-- `init_all`: the calls that are made. The sort is stable. -/
def initAll {F : Type} (components : List (ComponentInfo F)) (registries : List (ComponentRegistry F)) :
    Outcome (Components F) ComponentSystemInitError (List (ComponentInfo F × F)) :=
  (do let infos ← matchEach registries
      callEach (infos.mergeSort fun a b => a.priority ≤ b.priority)) (parseInput components)

/-! ## The dependency graph -/

/-- One component depends on another. -/
def Depends (packages : List Package) (a b : Text) : Prop :=
  ∃ q ∈ packages, q.name = a ∧ b ∈ q.dependencies

/-- No chain of dependencies from a package has `k` links. -/
def Depth (packages : List Package) (k : Nat) (n : Text) : Prop :=
  ∀ path, List.IsChain (Depends packages) (n :: path) → path.length < k

section Graph

variable {packages : List Package} {k : Nat} {n d : Text}

theorem Depth.pos (h : Depth packages k n) : 0 < k := h [] (isChain_singleton n)

theorem Depth.dep (h : Depth packages (k + 1) n) (hd : Depends packages n d) : Depth packages k d := by
  intro path hpath
  have hlen := h (d :: path) (isChain_cons_cons.mpr ⟨hd, hpath⟩)
  rw [length_cons] at hlen
  omega

theorem Depth.mono {j : Nat} (h : Depth packages j n) (hle : j ≤ k) : Depth packages k n :=
  fun path hpath => lt_of_lt_of_le (h path hpath) hle

theorem Depth.reach (h : Depth packages k n) (hreach : ReflTransGen (Depends packages) n d) : Depth packages k d := by
  induction hreach with
  | refl => exact h
  | tail _ hdep ih =>
    cases k with
    | zero => exact absurd ih.pos (lt_irrefl 0)
    | succ k => exact (ih.dep hdep).mono (Nat.le_succ k)

/-- A package is not reached from its dependencies. -/
theorem Depth.acyclic (h : Depth packages k n) (hd : Depends packages n d) :
    ¬ ReflTransGen (Depends packages) d n := by
  intro hback
  induction k with
  | zero => exact lt_irrefl 0 h.pos
  | succ k ih => exact ih ((h.dep hd).reach hback)

/-- The packages have different names, and what a package depends on is one of them. -/
structure Graph (packages : List Package) : Prop where
  names : (packages.map Package.name).Nodup
  closed : ∀ {a b}, Depends packages a b → b ∈ packages.map Package.name

variable {q : Package} {p : Profile} {m : Prioritys}

theorem Graph.packagesMap_eq (h : Graph packages) (hq : q ∈ packages) : packagesMap packages q.name = some q := by
  unfold packagesMap
  cases hfind : packages.reverse.find? fun r => r.name == q.name with
  | none => exact absurd (find?_eq_none.mp hfind q (mem_reverse.mpr hq)) (by simp)
  | some r =>
    have hr : r ∈ packages := mem_reverse.mp (mem_of_find?_eq_some hfind)
    have hname : r.name = q.name := by simpa using find?_some hfind
    exact congrArg some (inj_on_of_nodup_map h.names hr hq hname)

theorem Graph.depends_iff (h : Graph packages) (hq : q ∈ packages) :
    Depends packages q.name d ↔ d ∈ q.dependencies := by
  refine ⟨fun ⟨r, hr, hname, hd⟩ => ?_, fun hd => ⟨q, hq, rfl, hd⟩⟩
  rwa [← inj_on_of_nodup_map h.names hr hq hname]

/-! ## The recursion -/

/-- Remembered priorities: above those of the dependencies, and below every bound on the depth. -/
structure Memo (packages : List Package) (m : Prioritys) : Prop where
  below : ∀ {n v}, m n = some v → ∀ {d}, Depends packages n d → ∃ w, m d = some w ∧ w < v
  bound : ∀ {n v}, m n = some v → ∀ {k}, Depth packages k n → v < k

/-- What the recursion from some nodes does to the memory: it only adds, and only what is reached from them. -/
structure Grows (packages : List Package) (from_ : List Text) (m m' : Prioritys) : Prop where
  keeps : ∀ {n v}, m n = some v → m' n = some v
  only : ∀ {x}, m' x ≠ m x → ∃ n ∈ from_, ReflTransGen (Depends packages) n x

theorem Grows.refl (from_ : List Text) (m : Prioritys) : Grows packages from_ m m := ⟨id, fun h => absurd rfl h⟩

theorem Grows.trans {ns ns' : List Text} {a b c : Prioritys} (hab : Grows packages ns a b) (hbc : Grows packages ns' b c) :
    Grows packages (ns ++ ns') a c := by
  refine ⟨fun h => hbc.keeps (hab.keeps h), fun {x} hx => ?_⟩
  by_cases hb : b x = a x
  · obtain ⟨n, hn, hreach⟩ := hbc.only (hb ▸ hx)
    exact ⟨n, mem_append_right _ hn, hreach⟩
  · obtain ⟨n, hn, hreach⟩ := hab.only hb
    exact ⟨n, mem_append_left _ hn, hreach⟩

/-- The recursion from `n` returns, with the priority it remembers. -/
def Returns (packages : List Package) (n : Text) (m : Prioritys) (result : Option (Nat × Prioritys)) : Prop :=
  ∃ v m', result = some (v, m') ∧ Memo packages m' ∧ m' n = some v ∧ Grows packages [n] m m'

/-- The loop over the dependencies: the result is above the priority of each and not higher than needed. -/
theorem lowestPriority_spec {calculate : Text → Prioritys → Option (Nat × Prioritys)} (hk : k < 2 ^ 16)
    (ds : List Text) (hcalc : ∀ d ∈ ds, ∀ m, Memo packages m → Returns packages d m (calculate d m))
    (hdepth : ∀ d ∈ ds, Depth packages k d) (lowest : Nat) (hm : Memo packages m) :
    ∃ low m', lowestPriority p calculate ds lowest m = some (low, m') ∧ Memo packages m' ∧
      Grows packages ds m m' ∧ lowest ≤ low ∧ (∀ d ∈ ds, ∃ w, m' d = some w ∧ w < low) ∧
      ∀ b, lowest ≤ b → (∀ d ∈ ds, ∀ w, m' d = some w → w < b) → low ≤ b := by
  induction ds generalizing lowest m with
  | nil => exact ⟨lowest, m, rfl, hm, .refl _ m, le_rfl, nofun, fun b hb _ => hb⟩
  | cons d ds ih =>
    obtain ⟨v, m₁, hv, hm₁, hget, hgrow⟩ := hcalc d mem_cons_self m hm
    have hbound : v < k := hm₁.bound hget (hdepth d mem_cons_self)
    obtain ⟨low, m', hrest, hm', hgrow', hle, habove, hleast⟩ := ih
      (fun e he => hcalc e (mem_cons_of_mem _ he)) (fun e he => hdepth e (mem_cons_of_mem _ he))
      (max lowest (v + 1)) hm₁
    have hkept : m' d = some v := hgrow'.keeps hget
    refine ⟨low, m', ?_, hm', hgrow.trans hgrow', (le_max_left _ _).trans hle, ?_, fun b hb hall => ?_⟩
    · have hadd : p.add (2 ^ 16) v 1 = some (v + 1) := Profile.add_of_lt (by omega)
      simp only [lowestPriority, hv, Option.bind_eq_bind, Option.bind_some, hadd]
      exact hrest
    · intro e he
      rcases mem_cons.mp he with rfl | he
      · exact ⟨v, hkept, lt_of_lt_of_le (Nat.lt_succ_self v) ((le_max_right _ _).trans hle)⟩
      · exact habove e he
    · have hv' : v < b := hall d mem_cons_self v hkept
      exact hleast b (max_le hb hv') fun e he => hall e (mem_cons_of_mem _ he)

theorem Memo.insert (hg : Graph packages) (hm : Memo packages m) (hq : q ∈ packages) (hnew : m q.name = none)
    {low : Nat} (habove : ∀ d ∈ q.dependencies, ∃ w, m d = some w ∧ w < low)
    (hleast : ∀ b, (∀ d ∈ q.dependencies, ∀ w, m d = some w → w < b) → low ≤ b) :
    Memo packages (update m q.name (some low)) := by
  have hkeep : ∀ {d w}, m d = some w → update m q.name (some low) d = some w := by
    intro d w hd
    rw [update_of_ne]
    · exact hd
    · rintro rfl
      rw [hnew] at hd
      cases hd
  constructor
  · intro n v hv d hd
    by_cases hn : n = q.name
    · subst hn
      rw [update_self] at hv
      cases hv
      obtain ⟨w, hw, hlt⟩ := habove d ((hg.depends_iff hq).mp hd)
      exact ⟨w, hkeep hw, hlt⟩
    · rw [update_of_ne hn] at hv
      obtain ⟨w, hw, hlt⟩ := hm.below hv hd
      exact ⟨w, hkeep hw, hlt⟩
  · intro n v hv k hk
    by_cases hn : n = q.name
    · subst hn
      rw [update_self] at hv
      cases hv
      cases k with
      | zero => exact absurd hk.pos (lt_irrefl 0)
      | succ k =>
        exact Nat.lt_succ_of_le (hleast k fun d hd w hw => hm.bound hw (hk.dep ((hg.depends_iff hq).mpr hd)))
    · rw [update_of_ne hn] at hv
      exact hm.bound hv hk

/-- With a depth below the fuel the recursion returns, and keeps the priorities it has remembered above those of the
dependencies. -/
theorem calculatePriority_spec (hg : Graph packages) {fuel : Nat} (hn : n ∈ packages.map Package.name)
    (hdepth : Depth packages k n) (hfuel : k ≤ fuel) (hk : k ≤ 2 ^ 16) (hm : Memo packages m) :
    Returns packages n m (calculatePriority p (packagesMap packages) fuel n m) := by
  induction fuel generalizing k n m with
  | zero => exact absurd (lt_of_lt_of_le hdepth.pos hfuel) (lt_irrefl 0)
  | succ fuel ih =>
    unfold calculatePriority
    cases hget : m n with
    | some v => exact ⟨v, m, rfl, hm, hget, .refl _ m⟩
    | none =>
      obtain ⟨q, hq, rfl⟩ := mem_map.mp hn
      obtain ⟨k, rfl⟩ := Nat.exists_eq_succ_of_ne_zero hdepth.pos.ne'
      have hdep : ∀ d ∈ q.dependencies, Depends packages q.name d := fun d hd => (hg.depends_iff hq).mpr hd
      obtain ⟨low, m', hlow, hm', hgrow, -, habove, hleast⟩ := lowestPriority_spec (p := p) (by omega) q.dependencies
        (fun d hd m hm => ih (hg.closed (hdep d hd)) (hdepth.dep (hdep d hd)) (by omega) (by omega) hm)
        (fun d hd => hdepth.dep (hdep d hd)) 0 hm
      -- the recursion does not come back to the node
      have hnew : m' q.name = none := by
        by_contra hne
        obtain ⟨d, hd, hback⟩ := hgrow.only (x := q.name) (by rwa [hget])
        exact hdepth.acyclic (hdep d hd) hback
      refine ⟨low, update m' q.name (some low), ?_, ?_, update_self _ _ _, ?_⟩
      · simp only [hg.packagesMap_eq hq, Option.bind_eq_bind, Option.bind_some, hlow]
        rfl
      · exact hm'.insert hg hq hnew habove fun b hb => hleast b (Nat.zero_le b) hb
      · refine ⟨fun {x v} hx => ?_, fun {x} hx => ?_⟩
        · rw [update_of_ne]
          · exact hgrow.keeps hx
          · rintro rfl
            rw [hget] at hx
            cases hx
        · by_cases hxq : x = q.name
          · exact ⟨q.name, mem_singleton_self _, hxq ▸ .refl⟩
          · rw [update_of_ne hxq] at hx
            obtain ⟨d, hd, hreach⟩ := hgrow.only hx
            exact ⟨q.name, mem_singleton_self _, .head (hdep d hd) hreach⟩

theorem calculateAll_spec (hg : Graph packages) {fuel : Nat} (hfuel : k ≤ fuel) (hk : k ≤ 2 ^ 16) (order : List Text)
    (horder : ∀ n ∈ order, n ∈ packages.map Package.name ∧ Depth packages k n) (hm : Memo packages m) :
    ∃ m', calculateAll p fuel (packagesMap packages) order m = some m' ∧ Memo packages m' ∧
      (∀ {n v}, m n = some v → m' n = some v) ∧ ∀ n ∈ order, (m' n).isSome := by
  induction order generalizing m with
  | nil => exact ⟨m, rfl, hm, id, nofun⟩
  | cons n order ih =>
    have hrest := fun x hx => horder x (mem_cons_of_mem n hx)
    unfold calculateAll
    split
    · rename_i hget
      obtain ⟨m', hm', hmemo, hkeep, hall⟩ := ih hrest hm
      refine ⟨m', hm', hmemo, hkeep, fun x hx => ?_⟩
      rcases mem_cons.mp hx with rfl | hx
      · obtain ⟨v, hv⟩ := Option.isSome_iff_exists.mp hget
        rw [hkeep hv]
        rfl
      · exact hall x hx
    · obtain ⟨hmem, hdepth⟩ := horder n mem_cons_self
      obtain ⟨v, m₁, hv, hm₁, hget, hgrow⟩ := calculatePriority_spec (p := p) hg hmem hdepth hfuel hk hm
      obtain ⟨m', hm', hmemo, hkeep, hall⟩ := ih hrest hm₁
      refine ⟨m', by rw [hv]; exact hm', hmemo, fun h => hkeep (hgrow.keeps h), fun x hx => ?_⟩
      rcases mem_cons.mp hx with rfl | hx
      · rw [hkeep hget]
        rfl
      · exact hall x hx

theorem Memo.trans (hm : Memo packages m) {v : Nat} (hv : m n = some v)
    (hreach : TransGen (Depends packages) n d) : ∃ w, m d = some w ∧ w < v := by
  induction hreach with
  | single hdep => exact hm.below hv hdep
  | tail _ hdep ih =>
    obtain ⟨w, hw, hlt⟩ := ih
    obtain ⟨u, hu, hlt'⟩ := hm.below hw hdep
    exact ⟨u, hu, hlt'.trans hlt⟩

end Graph

theorem componentPackages_graph {packages : List Package}
    (hnames : ((componentPackages packages).map Package.name).Nodup) : Graph (componentPackages packages) := by
  refine ⟨hnames, ?_⟩
  rintro a b ⟨q, hq, -, hb⟩
  obtain ⟨r, -, rfl⟩ := mem_map.mp hq
  have hname : b ∈ getComponentsName packages := by simpa using (mem_filter.mp hb).2
  obtain ⟨c, hc, rfl⟩ := mem_map.mp hname
  refine mem_map.mpr ⟨_, mem_map.mpr ⟨c, mem_filter.mpr ⟨(mem_filter.mp hc).1, ?_⟩, rfl⟩, rfl⟩
  simpa using hname

/-! ## Matching and calling -/

section Calls

variable {F : Type}

theorem mapM_of_forall {α β : Type} {f : α → Option β} {g : α → β} {l : List α} (h : ∀ a ∈ l, f a = some (g a)) :
    l.mapM f = some (l.map g) := by
  induction l with
  | nil => rfl
  | cons a l ih =>
    rw [mapM_cons, h a mem_cons_self, ih fun b hb => h b (mem_cons_of_mem a hb)]
    rfl

variable {infos matched : List (ComponentInfo F)} {registries : List (ComponentRegistry F)}

theorem parse_of_not_mem {path : Text} (h : path ∉ infos.map ComponentInfo.path) (m : Components F) :
    infos.foldl (fun (out : Components F) c => update out c.path (some c)) m path = m path := by
  induction infos generalizing m with
  | nil => rfl
  | cons c infos ih =>
    rw [map_cons, mem_cons, not_or] at h
    rw [foldl_cons, ih h.2, update_of_ne h.1]

theorem parseInput_of_mem (hnodup : (infos.map ComponentInfo.path).Nodup) {info : ComponentInfo F}
    (h : info ∈ infos) : parseInput infos info.path = some info := by
  unfold parseInput
  generalize (fun _ => none : Components F) = m
  induction infos generalizing m with
  | nil => cases h
  | cons c infos ih =>
    rw [map_cons, nodup_cons] at hnodup
    rw [foldl_cons]
    rcases mem_cons.mp h with rfl | h
    · rw [parse_of_not_mem hnodup.1, update_self]
    · exact ih hnodup.2 h _

/-- A registration and the information it is matched with. -/
def Matched (infos : List (ComponentInfo F)) (registry : ComponentRegistry F) (matched : ComponentInfo F) : Prop :=
  ∃ info ∈ infos, componentDir registry.path = some info.path ∧
    matched = { info with function := some registry.function }

/-- Registrations of different components that are all there are all matched. -/
theorem matchEach_spec (hnodup : (registries.map fun r => componentDir r.path).Nodup) {components : Components F}
    (hthere : ∀ r ∈ registries, ∃ info ∈ infos, componentDir r.path = some info.path ∧
      components info.path = some info) : ∃ matched rest, matchEach registries components = .ok matched rest ∧
      List.Forall₂ (Matched infos) registries matched := by
  induction registries generalizing components with
  | nil => exact ⟨[], components, rfl, .nil⟩
  | cons r registries ih =>
    rw [map_cons, nodup_cons] at hnodup
    obtain ⟨info, hinfo, hdir, hget⟩ := hthere r mem_cons_self
    -- the entry that is taken out is not one of a later registration
    have hlater : ∀ s ∈ registries, ∃ info' ∈ infos, componentDir s.path = some info'.path ∧
        update components info.path none info'.path = some info' := by
      intro s hs
      obtain ⟨info', hinfo', hdir', hget'⟩ := hthere s (mem_cons_of_mem r hs)
      refine ⟨info', hinfo', hdir', ?_⟩
      rw [update_of_ne, hget']
      intro heq
      exact hnodup.1 (mem_map.mpr ⟨s, hs, by rw [hdir, hdir', heq]⟩)
    obtain ⟨matched, rest, hmatch, hall⟩ := ih hnodup.2 hlater
    refine ⟨{ info with function := some r.function } :: matched, rest, ?_, .cons ⟨info, hinfo, hdir, rfl⟩ hall⟩
    unfold matchEach
    rw [hdir, bind_eq, expect_some]
    simp only [get_bind, hget, modify_bind]
    rw [bind_eq, hmatch]
    rfl

theorem callEach_spec {σ ε : Type} (h : ∀ i ∈ infos, i.function.isSome) (s : σ) :
    ∃ calls, (callEach infos : Comp σ ε _) s = .ok calls s ∧ calls.map Prod.fst = infos ∧
      ∀ c ∈ calls, c.1.function = some c.2 := by
  induction infos with
  | nil => exact ⟨[], rfl, rfl, nofun⟩
  | cons i infos ih =>
    obtain ⟨f, hf⟩ := Option.isSome_iff_exists.mp (h i mem_cons_self)
    obtain ⟨calls, hcalls, hmap, hall⟩ := ih fun j hj => h j (mem_cons_of_mem i hj)
    refine ⟨(i, f) :: calls, ?_, by rw [map_cons, hmap], ?_⟩
    · unfold callEach
      rw [hf, bind_eq, expect_some]
      simp only
      rw [bind_eq, hcalls]
      rfl
    · intro c hc
      rcases mem_cons.mp hc with rfl | hc
      · exact hf
      · exact hall c hc

section

variable (h : List.Forall₂ (Matched infos) registries matched)
include h

theorem forall₂_map : matched.map (fun i => (some i.path, i.function)) =
      registries.map fun r => (componentDir r.path, some r.function) := by
  induction h with
  | nil => rfl
  | cons hm _ ih =>
    obtain ⟨info, -, hdir, rfl⟩ := hm
    rw [map_cons, map_cons, ih, hdir]

theorem matched_mem {i : ComponentInfo F} (hi : i ∈ matched) :
    i.function.isSome ∧ ∃ info ∈ infos, i.name = info.name ∧ i.priority = info.priority := by
  induction h with
  | nil => cases hi
  | cons hm _ ih =>
    rcases mem_cons.mp hi with rfl | hi
    · obtain ⟨info, hinfo, -, rfl⟩ := hm
      exact ⟨rfl, info, hinfo, rfl, rfl⟩
    · exact ih hi

end

/-- The information that is generated about a package. -/
def infoOf (prioritys : Prioritys) (q : Package) : ComponentInfo F :=
  ⟨q.name, q.path, (prioritys q.name).getD 0, none⟩

/-- Initialisation over information whose priorities fall along the dependencies. -/
theorem initAll_spec {packages : List Package} {m : Prioritys} (hm : Memo packages m)
    (hall : ∀ q ∈ packages, (m q.name).isSome) (hpaths : (packages.map Package.path).Nodup)
    (hreg : ∀ r ∈ registries, ∃ q ∈ packages, componentDir r.path = some q.path)
    (honce : (registries.map fun r => componentDir r.path).Nodup) :
    ∃ calls rest, initAll (packages.map (infoOf m)) registries = .ok calls rest ∧
      (calls.map fun c => (some c.1.path, c.2)).Perm (registries.map fun r => (componentDir r.path, r.function)) ∧
      calls.Pairwise fun earlier later => ¬ TransGen (Depends packages) earlier.1.name later.1.name := by
  have hnodup : ((packages.map (infoOf (F := F) m)).map ComponentInfo.path).Nodup := by
    rw [List.map_map]
    exact hpaths
  have hthere : ∀ r ∈ registries, ∃ info ∈ packages.map (infoOf (F := F) m), componentDir r.path = some info.path ∧
      parseInput (packages.map (infoOf m)) info.path = some info := by
    intro r hr
    obtain ⟨q, hq, hdir⟩ := hreg r hr
    have hmem := mem_map_of_mem (f := infoOf (F := F) m) hq
    exact ⟨infoOf m q, hmem, hdir, parseInput_of_mem hnodup hmem⟩
  obtain ⟨matched, rest, hmatch, hmatched⟩ := matchEach_spec honce hthere
  have hperm : (matched.mergeSort fun a b => a.priority ≤ b.priority).Perm matched := mergeSort_perm _ _
  have hsome : ∀ i ∈ matched.mergeSort fun a b => a.priority ≤ b.priority, i.function.isSome :=
    fun i hi => (matched_mem hmatched (hperm.mem_iff.mp hi)).1
  obtain ⟨calls, hcalls, hfst, hfun⟩ := callEach_spec (ε := ComponentSystemInitError) hsome rest
  refine ⟨calls, rest, ?_, ?_, ?_⟩
  · unfold initAll
    rw [bind_eq, hmatch]
    exact hcalls
  · have hinj : Function.Injective fun x : Option Text × F => (x.1, some x.2) := by
      rintro ⟨a, f⟩ ⟨b, g⟩ h
      simpa using h
    rw [← List.map_perm_map_iff hinj, List.map_map, List.map_map]
    have hleft : calls.map ((fun x : Option Text × F => (x.1, some x.2)) ∘ fun c => (some c.1.path, c.2)) =
        (calls.map Prod.fst).map fun i => (some i.path, i.function) := by
      rw [List.map_map]
      exact List.map_congr_left fun c hc => by simp [hfun c hc]
    rw [hleft, hfst]
    exact (hperm.map _).trans (forall₂_map hmatched ▸ .refl _)
  · have hsorted : (matched.mergeSort fun a b => a.priority ≤ b.priority).Pairwise
        fun a b => decide (a.priority ≤ b.priority) = true :=
      pairwise_mergeSort (fun a b c hab hbc => by simp only [decide_eq_true_eq] at *; omega)
        (fun a b => by simp only [Bool.or_eq_true, decide_eq_true_eq]; omega) matched
    have hcallsorted : calls.Pairwise fun a b => a.1.priority ≤ b.1.priority := by
      rw [← hfst, pairwise_map] at hsorted
      exact hsorted.imp fun h => of_decide_eq_true h
    refine hcallsorted.imp_of_mem fun {a b} ha hb hle htrans => ?_
    have hprio : ∀ c ∈ calls, m c.1.name = some c.1.priority := by
      intro c hc
      have hmem : c.1 ∈ matched := hperm.mem_iff.mp (hfst ▸ mem_map_of_mem hc)
      obtain ⟨-, info, hinfo, hname, hpriority⟩ := matched_mem hmatched hmem
      obtain ⟨q, hq, rfl⟩ := mem_map.mp hinfo
      obtain ⟨v, hv⟩ := Option.isSome_iff_exists.mp (hall q hq)
      rw [hname, hpriority]
      show m q.name = some ((m q.name).getD 0)
      rw [hv]
      rfl
    obtain ⟨w, hw, hlt⟩ := hm.trans (hprio a ha) htrans
    rw [hprio b hb] at hw
    cases hw
    omega

/-- Every order of the hash map and of the registrations gives priorities that grow along the dependencies, and each
registered function is called once, after those of all it depends on. -/
theorem init_order (p : Profile) {packages : List Package}
    (hnames : ((componentPackages packages).map Package.name).Nodup)
    (hpaths : ((componentPackages packages).map Package.path).Nodup)
    (hdepth : ∀ n path, List.IsChain (Depends (componentPackages packages)) (n :: path) → path.length < 65536)
    {order : List Text} (horder : ∀ n, n ∈ order ↔ n ∈ (componentPackages packages).map Package.name)
    {registries : List (ComponentRegistry F)}
    (hreg : ∀ r ∈ registries, ∃ q ∈ componentPackages packages, componentDir r.path = some q.path)
    (honce : (registries.map fun r => componentDir r.path).Nodup) {fuel : Nat} (hfuel : 65536 ≤ fuel) :
    ∃ infos : List (ComponentInfo F), componentGenerate p fuel order packages = some infos ∧
      infos.map (fun i => (i.name, i.path)) = (componentPackages packages).map (fun q => (q.name, q.path)) ∧
      (∀ a ∈ infos, ∀ b ∈ infos, Depends (componentPackages packages) a.name b.name → b.priority < a.priority) ∧
      ∃ calls rest, initAll infos registries = .ok calls rest ∧
        (calls.map fun c => (some c.1.path, c.2)).Perm (registries.map fun r => (componentDir r.path, r.function)) ∧
        calls.Pairwise fun earlier later =>
          ¬ TransGen (Depends (componentPackages packages)) earlier.1.name later.1.name := by
  have hg := componentPackages_graph hnames
  obtain ⟨m, hcalc, hm, -, hsome⟩ := calculateAll_spec (p := p) hg hfuel (by norm_num) order
    (fun n hn => ⟨(horder n).mp hn, hdepth n⟩) (m := fun _ => none) ⟨nofun, nofun⟩
  have hall : ∀ q ∈ componentPackages packages, (m q.name).isSome :=
    fun q hq => hsome q.name ((horder q.name).mpr (List.mem_map_of_mem hq))
  refine ⟨(componentPackages packages).map (infoOf m), ?_, ?_, ?_, initAll_spec hm hall hpaths hreg honce⟩
  · unfold componentGenerate
    rw [hcalc]
    refine mapM_of_forall fun q hq => ?_
    obtain ⟨v, hv⟩ := Option.isSome_iff_exists.mp (hall q hq)
    simp [componentInfo, infoOf, hv]
  · rw [List.map_map]
    rfl
  · intro a ha b hb hdep
    obtain ⟨q, hq, rfl⟩ := List.mem_map.mp ha
    obtain ⟨r, hr, rfl⟩ := List.mem_map.mp hb
    obtain ⟨v, hv⟩ := Option.isSome_iff_exists.mp (hall q hq)
    obtain ⟨w, hw, hlt⟩ := hm.below hv hdep
    show (m r.name).getD 0 < (m q.name).getD 0
    rw [hv, show m r.name = some w from hw]
    exact hlt

end Calls

/-- Two components, the first of which depends on the second. -/
def twoPackages : List Package :=
  [⟨['a'], [['c', 'o', 'm', 'p', 'o', 'n', 'e', 'n', 't'], ['b']], ['l', '/', 'a']⟩,
   ⟨['b'], [['c', 'o', 'm', 'p', 'o', 'n', 'e', 'n', 't']], ['l', '/', 'b']⟩]

/-- The registrations of the two, the dependent one first. -/
def twoRegistries : List (ComponentRegistry Nat) :=
  [⟨0, ['l', '/', 'a', '/', 's', 'r', 'c', '/', 'm', '.', 'r', 's']⟩,
   ⟨1, ['l', '/', 'b', '/', 's', 'r', 'c', '/', 'm', '.', 'r', 's']⟩]

theorem twoPackages_depends {a b : Text} (h : Depends (componentPackages twoPackages) a b) : a = ['a'] ∧ b = ['b'] := by
  have heq : componentPackages twoPackages = [⟨['a'], [['b']], ['l', '/', 'a']⟩, ⟨['b'], [], ['l', '/', 'b']⟩] := by
    decide
  obtain ⟨q, hq, rfl, hb⟩ := h
  rw [heq, mem_cons, mem_singleton] at hq
  rcases hq with rfl | rfl
  · exact ⟨rfl, mem_singleton.mp hb⟩
  · cases hb

theorem init_order_two : ∃ infos : List (ComponentInfo Nat),
    componentGenerate .dev 65536 [['a'], ['b']] twoPackages = some infos ∧
      infos.map (fun i => (i.name, i.path)) = (componentPackages twoPackages).map (fun q => (q.name, q.path)) ∧
      (∀ a ∈ infos, ∀ b ∈ infos, Depends (componentPackages twoPackages) a.name b.name → b.priority < a.priority) ∧
      ∃ calls rest, initAll infos twoRegistries = .ok calls rest ∧ (calls.map fun c => (some c.1.path, c.2)).Perm
          (twoRegistries.map fun r => (componentDir r.path, r.function)) ∧
        calls.Pairwise fun earlier later =>
          ¬ TransGen (Depends (componentPackages twoPackages)) earlier.1.name later.1.name := by
  refine init_order .dev (by decide) (by decide) ?_ ?_ (by decide +kernel) (by decide +kernel) le_rfl
  · intro n path hchain
    match path with
    | [] => exact Nat.zero_lt_succ _
    | [_] => exact (by decide : 1 < 65536)
    | x :: y :: rest =>
      obtain ⟨hx, hrest⟩ := List.isChain_cons_cons.mp hchain
      obtain ⟨hy, -⟩ := List.isChain_cons_cons.mp hrest
      have hxb := (twoPackages_depends hx).2
      have hxa := (twoPackages_depends hy).1
      rw [hxb] at hxa
      cases hxa
  · intro n
    have hnames : (componentPackages twoPackages).map Package.name = [['a'], ['b']] := by decide
    rw [hnames]

end AsterKernel.Component
