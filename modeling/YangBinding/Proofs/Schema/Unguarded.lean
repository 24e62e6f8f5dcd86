import YangBinding.Proofs.Schema.Offers

/-!
# Walks without a guard

The walks over a schema follow a link only if it leads in the right direction, so they end whatever
the links of a model are. Here the same walks are taken without that care: a link is followed
wherever it leads. A walk that leaves the model has no result, and neither has one that has not come
to its end in a given number of steps, as it happens to one that goes round in circles. In a model
whose links are in step, as many steps as there are nodes are enough for every walk, and the result is
that of the guarded walk: the guards never have anything to do.

The walks nest two optional values. The outer one says whether the walk comes to an end within the
model, the inner one is its answer.

## Main definitions

* `Ref.Unguarded.module`, `Ref.Unguarded.dataParent?`, `Ref.Unguarded.path`,
  `Ref.Unguarded.targetPath` — the walks up
* `Ref.Unguarded.resolve?`, `Ref.Unguarded.findDataChild?` — the walks down
* `Model.Walkable` — every walk from every node comes to its end in time

## Main results

* `Model.Linked.walkable` — a model whose links are in step is walkable
-/

namespace YangBinding.Schema

namespace Ref.Unguarded

/-- Where a link leads, whatever its direction. -/
def follow (r : Ref) : Option Nat → Option (Option Ref)
  | none => some none
  | some i => (r.model.ref? i).map some

/-- Where links lead, whatever their direction. -/
def followAll (r : Ref) (links : List Nat) : Option (List Ref) := links.mapM r.model.ref?

def parent? (r : Ref) : Option (Option Ref) := follow r r.node.parent

def target? (r : Ref) : Option (Option Ref) := follow r r.node.target

def children (r : Ref) : Option (List Ref) := followAll r r.node.children

def augments (r : Ref) : Option (List Ref) := followAll r r.node.augments

/-! ### Up -/

/-- From a node to its parent until there is none. -/
def module : Nat → Ref → Option Ref
  | 0, _ => none
  | steps + 1, r => do
    match ← parent? r with
    | none => pure r
    | some p => module steps p

/-- The first node from here on that shows up in data. Choices and cases are left for their parents
and augments for their targets. -/
def surface : Nat → Ref → Option (Option Ref)
  | 0, _ => none
  | steps + 1, r =>
    match r.kind with
    | .choice | .case => do
      match ← parent? r with
      | none => pure none
      | some p => surface steps p
    | .augment => do
      match ← target? r with
      | none => pure none
      | some t => surface steps t
    | .module => some none
    | _ => some (some r)

/-- The nearest node above that shows up in data. -/
def dataParent? (steps : Nat) (r : Ref) : Option (Option Ref) := do
  match ← parent? r with
  | none => pure none
  | some p => surface steps p

/-- Where the way up goes on. -/
def up? (r : Ref) : Option (Option Ref) :=
  if r.kind = .augment then target? r else parent? r

/-- The nodes from here up to a module. -/
def ancestry : Nat → Ref → Option (List Ref)
  | 0, _ => none
  | steps + 1, r =>
    if r.kind = .module then some []
    else do
      match ← up? r with
      | none => pure [r]
      | some above =>
        let rest ← ancestry steps above
        pure (r :: rest)

/-- The path of a node, behind the name of its module. -/
def path (steps : Nat) (r : Ref) : Option String := do
  let nodes ← ancestry steps r
  let m ← module steps r
  pure (m.name ++ ":/" ++ "/".intercalate (nodes.reverse.map name))

/-- The path of a node for augments to name it by. -/
def targetPath (steps : Nat) (r : Ref) : Option String := do
  let nodes ← ancestry steps r
  pure ("/" ++ "/".intercalate ((nodes.filter fun a => a.kind != .augment).reverse.map name))

/-! ### Down -/

/-- The child that a name of a schema path leads to. -/
def pathChild? (r : Ref) (name : String) : Option (Option Ref) := do
  let declared ← children r
  match (declared.filter fun c => c.kind != .augment).find? (fun c => c.name == name) with
  | some c => pure (some c)
  | none =>
    let contributed ← (← augments r).mapM children
    pure (contributed.flatten.find? fun c => c.name == name)

/-- The node at the end of a sequence of names. -/
def descend (r : Ref) : List String → Option (Option Ref)
  | [] => some (some r)
  | name :: names => do
    match ← pathChild? r (qualifiedName name).2 with
    | none => pure none
    | some c => descend c names

/-- The node at a schema path. -/
def resolve? (m : Model) (path : String) : Option (Option Ref) := do
  let modules ← m.modules.mapM m.ref?
  match pathNames path with
  | [] => pure none
  | first :: rest =>
    let (module, name) := qualifiedName first
    let top ← (modules.filter fun m => module.all fun n => n == m.name).findSomeM? fun m =>
      pathChild? m name
    match top with
    | none => pure none
    | some top => descend top rest

/-- The cases of a choice. -/
def cases (r : Ref) : Option (List Ref) := do
  let declared ← children r
  let contributed ← (← augments r).mapM children
  pure ((declared ++ contributed.flatten).filter fun c => c.kind == .case)

/-- The layers directly in a node. -/
def layers (r : Ref) : Option (List Layer) := do
  let declared ← children r
  let selected ← (declared.filter fun c => c.kind == .choice).mapM fun choice => do
    pure ((← cases choice).map (Layer.case choice))
  pure ((← augments r).map Layer.augment ++ selected.flatten)

/-- The data child of a name, and of a namespace if one is given. -/
def findDataChild? : Nat → Ref → String → Option String → Option (Option DataChild)
  | 0, _, _, _ => none
  | steps + 1, r, name, ns => do
    match (← children r).find? fun c => !c.isLayer && c.id.fits name ns with
    | some node => pure (some { node })
    | none =>
      (← layers r).findSomeM? fun layer => do
        pure ((← findDataChild? steps layer.node name ns).map (·.under layer))

/-! ### Steps that always succeed -/

section

variable {α β : Type} {xs : List α}

theorem mapM_eq {f : α → Option β} {g : α → β} (h : ∀ x ∈ xs, f x = some (g x)) :
    xs.mapM f = some (xs.map g) := by
  induction xs with
  | nil => rfl
  | cons x xs ih =>
    have hrest := ih fun y hy => h y (by simp [hy])
    rw [List.mapM_cons, h x (by simp), hrest]
    rfl

theorem mapM_eq_filterMap {f g : α → Option β} (h : ∀ x ∈ xs, f x = g x ∧ (g x).isSome) :
    xs.mapM f = some (xs.filterMap g) := by
  induction xs with
  | nil => rfl
  | cons x xs ih =>
    have hrest := ih fun y hy => h y (by simp [hy])
    obtain ⟨hfg, hsome⟩ := h x (by simp)
    obtain ⟨y, hy⟩ := Option.isSome_iff_exists.1 hsome
    rw [List.mapM_cons, hfg, hy, hrest, List.filterMap_cons_some hy]
    rfl

/-- A search that always comes to its end is the search for the first answer. -/
theorem findSomeM?_eq {f : α → Option (Option β)} {g : α → Option β}
    (h : ∀ x ∈ xs, f x = some (g x)) : xs.findSomeM? f = some (xs.findSome? g) := by
  induction xs with
  | nil => rfl
  | cons x xs ih =>
    rw [List.findSomeM?, h x (by simp), List.findSome?_cons]
    cases g x with
    | none => exact ih fun y hy => h y (by simp [hy])
    | some y => rfl

end

/-! ### The guards have nothing to do -/

variable {r : Ref} {steps : Nat}

theorem follow_eq {link : Option Nat} (h : ∀ i, link = some i → i < r.index.val) :
    follow r link = some (r.earlier? link) := by
  cases link with
  | none => rfl
  | some i =>
    have hi := h i rfl
    have hr := r.index.isLt
    simp [follow, earlier?, Model.ref?, hi, Nat.lt_trans hi hr]

theorem followAll_eq {links : List Nat}
    (h : ∀ i ∈ links, r.index.val < i ∧ i < r.model.nodes.size) :
    followAll r links = some (r.later links) := by
  refine mapM_eq_filterMap fun i hi => ?_
  obtain ⟨hlt, hsize⟩ := h i hi
  simp [Model.ref?, hlt, hsize]

theorem parent?_eq (hm : r.model.Linked) : parent? r = some r.parent? :=
  follow_eq fun _ hi => hm.parent_lt ((parentAt_index rfl).trans hi)

theorem target?_eq (hm : r.model.Linked) : target? r = some r.target? :=
  follow_eq fun _ hi => hm.target_lt ((targetAt_index rfl).trans hi)

theorem children_eq (hm : r.model.Linked) : children r = some r.children := by
  refine followAll_eq fun i hi => ?_
  rw [← childrenAt_index rfl] at hi
  exact ⟨hm.parent_lt (hm.mem_children.1 hi), hm.lt_of_mem_children hi⟩

theorem augments_eq (hm : r.model.Linked) : augments r = some r.augments := by
  refine followAll_eq fun i hi => ?_
  rw [← augmentsAt_index rfl] at hi
  exact ⟨hm.target_lt (hm.mem_augments.1 hi), hm.lt_of_mem_augments hi⟩

theorem module_eq (hm : r.model.Linked) (hs : r.index.val < steps) :
    module steps r = some r.module := by
  induction steps generalizing r with
  | zero => omega
  | succ steps ih =>
    rw [module, parent?_eq hm]
    cases hp : r.parent? with
    | none =>
      have : r.enclosing = [] := by
        rw [enclosing]
        split
        · rfl
        · simp_all
      simp [Ref.module, this]
    | some p =>
      have hlt := index_lt_of_earlier? hp
      have hpm := model_of_parent? hp
      simp [ih (hpm ▸ hm) (by omega), Ref.module, enclosing_eq hp, List.getLast?_cons]

theorem up?_eq (hm : r.model.Linked) (hk : r.kind ≠ .module) : up? r = some r.up? := by
  unfold up?
  split
  · simp_all [target?_eq, Ref.up?]
  · rw [parent?_eq hm, up?_eq_parent? hk (by assumption)]

theorem ancestry_eq (hm : r.model.Linked) (hs : r.index.val < steps) :
    ancestry steps r = some r.ancestry := by
  induction steps generalizing r with
  | zero => omega
  | succ steps ih =>
    rw [ancestry]
    split
    · next hk => rw [Ref.ancestry, if_pos hk]
    · next hk =>
      obtain ⟨p, hp⟩ := exists_up? hm hk
      have hlt := index_lt_of_up? hp
      have hpm := model_of_up? hp
      simp [up?_eq hm hk, hp, ancestry_of_up? hk hp, ih (hpm ▸ hm) (by omega)]

/-- A layer is left for the next node on the way up. -/
theorem surface_of_up? {p : Ref} (hm : r.model.Linked) (hl : r.isLayer = true)
    (hp : r.up? = some p) : surface (steps + 1) r = surface steps p := by
  rw [surface]
  cases hk : r.kind <;> simp [isLayer_iff, hk] at hl
  case augment =>
    rw [Ref.up?, hk] at hp
    simp [target?_eq hm, show r.target? = some p from hp]
  all_goals
    rw [up?_eq_parent? (by simp [hk]) (by simp [hk])] at hp
    simp [parent?_eq hm, hp]

theorem surface_eq (hm : r.model.Linked) (hs : r.index.val < steps) :
    surface steps r = some r.dataAncestry.head? := by
  induction steps generalizing r with
  | zero => omega
  | succ steps ih =>
    by_cases hk : r.kind = .module
    · rw [surface, hk, dataAncestry_of_module hk]
      rfl
    obtain ⟨p, hp⟩ := exists_up? hm hk
    cases hl : r.isLayer with
    | true =>
      have hlt := index_lt_of_up? hp
      have hpm := model_of_up? hp
      rw [surface_of_up? hm hl hp, ih (hpm ▸ hm) (by omega), dataAncestry_of_isLayer hp hl]
    | false =>
      rw [dataAncestry_of_data hm hk hl]
      rw [surface]
      cases hk' : r.kind <;> simp_all [isLayer_eq_false_iff]

theorem dataParent?_eq (hm : r.model.Linked) (hs : r.index.val < steps) :
    dataParent? steps r = some r.dataParent? := by
  rw [dataParent?, parent?_eq hm, Ref.dataParent?]
  cases hp : r.parent? with
  | none => simp [dataAncestors, hp]
  | some p =>
    have hlt := index_lt_of_earlier? hp
    have hpm := model_of_parent? hp
    simp [surface_eq (hpm ▸ hm) (Nat.lt_trans hlt hs), dataAncestors_of_parent? hp]

theorem path_eq (hm : r.model.Linked) (hs : r.index.val < steps) : path steps r = some r.path := by
  simp [path, ancestry_eq hm hs, module_eq hm hs, Ref.path]

theorem targetPath_eq (hm : r.model.Linked) (hs : r.index.val < steps) :
    targetPath steps r = some r.targetPath := by
  simp [targetPath, ancestry_eq hm hs, Ref.targetPath]

/-- What augments of a node contribute to it. -/
theorem contributed_eq (hm : r.model.Linked) :
    r.augments.mapM children = some (r.augments.map Ref.children) :=
  mapM_eq fun _ ha => children_eq (model_of_mem_augments ha ▸ hm)

theorem pathChild?_eq (hm : r.model.Linked) (name : String) :
    pathChild? r name = some (r.pathChild? name) := by
  simp only [pathChild?, Ref.pathChild?, children_eq hm, augments_eq hm, Option.bind_eq_bind,
    Option.bind_some, contributed_eq hm, List.flatMap_def]
  cases (r.children.filter fun c => c.kind != .augment).find? fun c => c.name == name <;> rfl

/-- A name of a path leads to a child of the node or of an augment of it. -/
theorem model_of_pathChild? {c : Ref} {name : String} (h : r.pathChild? name = some c) :
    c.model = r.model := by
  rw [Ref.pathChild?, Option.orElse_eq_orElse, ← Option.or_eq_orElse] at h
  obtain h | ⟨-, h⟩ := Option.or_eq_some_iff.1 h
  · exact model_of_mem_children (List.mem_of_mem_filter (List.mem_of_find?_eq_some h))
  · obtain ⟨a, ha, hc⟩ := List.mem_flatMap.1 (List.mem_of_find?_eq_some h)
    exact (model_of_mem_children hc).trans (model_of_mem_augments ha)

theorem descend_eq {m : Model} (hm : m.Linked) {r : Ref} (hr : r.model = m) (names : List String) :
    descend r names = some (names.foldlM (fun r name => r.pathChild? (qualifiedName name).2) r) := by
  induction names generalizing r with
  | nil => rfl
  | cons name names ih =>
    rw [descend, pathChild?_eq (hr ▸ hm), List.foldlM_cons]
    cases hc : r.pathChild? (qualifiedName name).2 with
    | none => rfl
    | some c => exact ih ((model_of_pathChild? hc).trans hr)

theorem moduleRefs_eq {m : Model} (hm : m.Linked) :
    m.modules.mapM m.ref? = some m.moduleRefs := by
  refine mapM_eq_filterMap fun i hi => ⟨rfl, ?_⟩
  simp [Model.ref?, hm.lt_of_mem_modules hi]

theorem resolve?_eq (d : Draft) (hm : d.model.Linked) (path : String) :
    resolve? d.model path = some (d.resolve? path) := by
  rw [resolve?, Draft.resolve?, moduleRefs_eq hm]
  cases pathNames path with
  | nil => rfl
  | cons first rest =>
    -- The modules that the first name is searched in are all of this model.
    have hmodel : ∀ r ∈ d.model.moduleRefs.filter fun m =>
        (qualifiedName first).1.all fun n => n == m.name, r.model = d.model := fun r hr =>
      model_of_mem_moduleRefs (List.mem_of_mem_filter hr)
    have hsearch := findSomeM?_eq fun r hr =>
      pathChild?_eq (hmodel r hr ▸ hm) (qualifiedName first).2
    simp only [Option.bind_eq_bind, Option.bind_some]
    rw [hsearch, Option.bind_some]
    cases htop : (d.model.moduleRefs.filter fun m =>
        (qualifiedName first).1.all fun n => n == m.name).findSome?
          fun m => m.pathChild? (qualifiedName first).2 with
    | none => rfl
    | some top =>
      obtain ⟨r, hr, htop⟩ := List.exists_of_findSome?_eq_some htop
      exact descend_eq hm ((model_of_pathChild? htop).trans (hmodel r hr)) rest

theorem cases_eq (hm : r.model.Linked) : cases r = some r.cases := by
  simp [cases, Ref.cases, children_eq hm, augments_eq hm, contributed_eq hm, List.flatMap_def]

theorem layers_eq (hm : r.model.Linked) : layers r = some r.layers := by
  rw [layers, children_eq hm, Option.bind_eq_bind, Option.bind_some,
    mapM_eq (g := fun choice => choice.cases.map (Layer.case choice)), augments_eq hm]
  · simp [Ref.layers, List.flatMap_def]
  · intro choice hc
    have hcm := model_of_mem_children (List.mem_of_mem_filter hc)
    rw [cases_eq (hcm ▸ hm)]
    rfl

theorem findDataChild?_eq (hm : r.model.Linked) (hs : r.height ≤ steps) (name : String)
    (ns : Option String) : findDataChild? steps r name ns = some (r.findDataChild? name ns) := by
  induction steps generalizing r with
  | zero =>
    have hlt := r.index.isLt
    unfold height at hs
    omega
  | succ steps ih =>
    rw [findDataChild?, children_eq hm]
    cases hown : r.ownDataChild? name ns with
    | some node =>
      rw [findDataChild?_of_own hown]
      simp [show r.children.find? _ = some node from hown]
    | none =>
      rw [findDataChild?_of_not_own hown]
      simp only [Option.bind_eq_bind, Option.bind_some, layers_eq hm,
        show r.children.find? (fun c => !c.isLayer && c.id.fits name ns) = none from hown]
      refine findSomeM?_eq fun layer hl => ?_
      have hlt := height_lt_of_mem_layers hl
      have hlm := model_of_mem_layers hl
      rw [ih (hlm ▸ hm) (by omega)]
      rfl

end Ref.Unguarded

/-- Every walk from every node comes to its end within the model, in no more steps than there are
nodes, and with the answer of the walk that is guarded. -/
structure Model.Walkable (m : Model) : Prop where
  module : ∀ r ∈ m.refs, ∀ steps ≥ m.nodes.size, Ref.Unguarded.module steps r = some r.module
  dataParent : ∀ r ∈ m.refs, ∀ steps ≥ m.nodes.size,
    Ref.Unguarded.dataParent? steps r = some r.dataParent?
  path : ∀ r ∈ m.refs, ∀ steps ≥ m.nodes.size, Ref.Unguarded.path steps r = some r.path
  targetPath : ∀ r ∈ m.refs, ∀ steps ≥ m.nodes.size,
    Ref.Unguarded.targetPath steps r = some r.targetPath
  resolve : ∀ path, Ref.Unguarded.resolve? m path = some ((Draft.mk m).resolve? path)
  findDataChild : ∀ r ∈ m.refs, ∀ steps ≥ m.nodes.size, ∀ name ns,
    Ref.Unguarded.findDataChild? steps r name ns = some (r.findDataChild? name ns)

open Ref in
/-- A model whose links are in step is walkable. -/
theorem Model.Linked.walkable {m : Model} (hm : m.Linked) : m.Walkable := by
  have hlinked {r : Ref} (hr : r ∈ m.refs) : r.model.Linked := model_of_mem_refs hr ▸ hm
  have hindex {r : Ref} {steps : Nat} (hr : r ∈ m.refs) (hs : steps ≥ m.nodes.size) :
      r.index.val < steps :=
    Nat.lt_of_lt_of_le r.index.isLt (model_of_mem_refs hr ▸ hs)
  have hheight {r : Ref} {steps : Nat} (hr : r ∈ m.refs) (hs : steps ≥ m.nodes.size) :
      r.height ≤ steps :=
    Nat.le_trans (Nat.sub_le _ _) (model_of_mem_refs hr ▸ hs)
  exact {
    module := fun _ hr _ hs => Unguarded.module_eq (hlinked hr) (hindex hr hs)
    dataParent := fun _ hr _ hs => Unguarded.dataParent?_eq (hlinked hr) (hindex hr hs)
    path := fun _ hr _ hs => Unguarded.path_eq (hlinked hr) (hindex hr hs)
    targetPath := fun _ hr _ hs => Unguarded.targetPath_eq (hlinked hr) (hindex hr hs)
    resolve := Unguarded.resolve?_eq ⟨m⟩ hm
    findDataChild := fun _ hr _ hs => Unguarded.findDataChild?_eq (hlinked hr) (hheight hr hs) }

end YangBinding.Schema
