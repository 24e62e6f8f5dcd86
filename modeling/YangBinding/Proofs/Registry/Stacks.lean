import Mathlib.Order.Defs.LinearOrder
import YangBinding.Proofs.Sequence
import YangBinding.Registry.Index

/-!
# Stacks of providers

An index keeps, under every name, a stack of what was added under it, the latest on top. Additions
push, and when a model goes its items leave the middle of the stacks. What a stack holds is thereby
always the reverse of what a plain log of the additions has under the name, and a name without
items has no stack. Two levels of such stacks make up the index of module revisions.

## Main definitions

* `Stacks` — the stacks of a map hold the items of a log
* `Index.Logs` — so do the stacks of an index of revisions
* `Index.scan?` — the module that a log selects when no revision is asked for

## Main results

* `Index.Logs.add`, `Index.Logs.drop` — an index follows its log
* `Index.Logs.ofRevision?_eq`, `Index.Logs.select?_eq` — an index answers like a scan of its log
* `Index.findSome?_selected_congr` — what is found in the order of the names is decided name by name
* `Index.Logs.mem_all_iff`, `Index.Logs.pairwise_all` — an index lists the latest providers in order
-/

namespace YangBinding

open Calendar (Date)
open Schema (Ref)
open Std (TreeMap TransCmp TransOrd LawfulEqOrd)

namespace Calendar.Date

instance : TransOrd Date :=
  inferInstanceAs
    (TransCmp (compareLex (compareOn year) (compareLex (compareOn month) (compareOn day))))

instance : LawfulEqOrd Date where
  eq_of_compare := by
    intro a b h
    obtain ⟨hy, h⟩ := compareLex_eq_eq.1 h
    obtain ⟨hm, hd⟩ := compareLex_eq_eq.1 h
    obtain ⟨y, m, d, _⟩ := a
    obtain ⟨y', m', d', _⟩ := b
    obtain rfl : y = y' := Std.LawfulEqOrd.eq_of_compare hy
    obtain rfl : m = m' := Std.LawfulEqOrd.eq_of_compare hm
    obtain rfl : d = d' := Std.LawfulEqOrd.eq_of_compare hd
    rfl

end Calendar.Date

/-! ### One level -/

section Stacks

variable {κ α : Type} [DecidableEq κ] {log : List (κ × α)} {k : κ} {a : α}

/-- A list that has an item. -/
def nonempty? (items : List α) : Option (List α) :=
  if items.isEmpty then none else some items

/-- The items that a log has under a name, in the order of their addition. -/
def under (k : κ) (log : List (κ × α)) : List α :=
  (log.filter fun entry => entry.1 = k).map Prod.snd

theorem nonempty?_eq_some_iff {items others : List α} :
    nonempty? items = some others ↔ items = others ∧ items ≠ [] := by
  cases items <;> simp [nonempty?]

theorem nonempty?_getD (items : List α) : (nonempty? items).getD [] = items := by
  cases items <;> rfl

theorem nonempty?_head? (items : List α) : (nonempty? items).bind List.head? = items.head? := by
  cases items <;> rfl

theorem nonempty?_kept (test : α → Bool) (items : List α) :
    (nonempty? items).bind (Index.kept test) = nonempty? (items.filter test) := by
  have hany : items.any test = !(items.filter test).isEmpty := by
    rw [Bool.eq_iff_iff]
    simp
  cases items with
  | nil => rfl
  | cons a as =>
    change Index.kept test (a :: as) = _
    rw [Index.kept, hany, nonempty?]
    cases ((a :: as).filter test).isEmpty <;> rfl

theorem mem_under_iff : a ∈ under k log ↔ (k, a) ∈ log := by
  simp [under]

theorem under_append (k : κ) (log others : List (κ × α)) :
    under k (log ++ others) = under k log ++ under k others := by
  simp [under]

theorem under_filter (test : α → Bool) (k : κ) (log : List (κ × α)) :
    under k (log.filter fun entry => test entry.2) = (under k log).filter test := by
  simp [under, List.filter_map, List.filter_filter, Function.comp_def, Bool.and_comm]

variable [Ord κ] [TransOrd κ] {piles : TreeMap κ (List α)}

/-- The stack of every name holds what a log has under it, the latest on top. -/
def Stacks (piles : TreeMap κ (List α)) (log : List (κ × α)) : Prop :=
  ∀ k, piles[k]? = nonempty? (under k log).reverse

theorem Stacks.empty : Stacks (∅ : TreeMap κ (List α)) [] := by
  intro k
  exact TreeMap.getElem?_emptyc

omit [TransOrd κ] in
/-- On top of a stack is the latest item. -/
theorem Stacks.head?_eq (h : Stacks piles log) (k : κ) :
    piles[k]?.bind List.head? = (under k log).getLast? := by
  rw [h k, nonempty?_head?, List.head?_reverse]

theorem Stacks.mem_iff (h : Stacks piles log) : k ∈ piles ↔ ∃ a, (k, a) ∈ log := by
  rw [TreeMap.mem_iff_isSome_getElem?, h k, Option.isSome_iff_exists]
  simp only [nonempty?_eq_some_iff, ne_eq, List.reverse_eq_nil_iff]
  constructor
  · rintro ⟨items, -, hne⟩
    obtain ⟨a, ha⟩ := List.exists_mem_of_ne_nil _ hne
    exact ⟨a, mem_under_iff.1 ha⟩
  · rintro ⟨a, ha⟩
    exact ⟨_, rfl, List.ne_nil_of_mem (mem_under_iff.2 ha)⟩

theorem Stacks.isEmpty_iff (h : Stacks piles log) : piles.isEmpty = true ↔ log = [] := by
  rw [← Bool.not_eq_false, TreeMap.isEmpty_eq_false_iff_exists_mem, List.eq_nil_iff_forall_not_mem]
  simp [h.mem_iff]

variable [LawfulEqOrd κ]

/-- Putting an item on the stack of a name is adding it to the log. -/
theorem Stacks.push (h : Stacks piles log) (k : κ) (a : α) :
    Stacks (piles.alter k (Index.pushed a)) (log ++ [(k, a)]) := by
  intro k'
  rw [TreeMap.getElem?_alter, under_append]
  by_cases hk : k = k'
  · subst hk
    have one : under k [(k, a)] = [a] := by simp [under]
    rw [if_pos Std.ReflCmp.compare_self, h k, Index.pushed, nonempty?_getD, one,
      List.reverse_append]
    rfl
  · have : compare k k' ≠ .eq := fun e => hk (LawfulEqOrd.eq_of_compare e)
    rw [if_neg this, h k']
    simp [under, hk]

/-- Taking items off all stacks is taking them out of the log. -/
theorem Stacks.keep (h : Stacks piles log) (test : α → Bool) :
    Stacks (piles.filterMap fun _ items => Index.kept test items)
      (log.filter fun entry => test entry.2) := by
  intro k
  rw [TreeMap.getElem?_filterMap', h k, nonempty?_kept, under_filter, List.filter_reverse]

/-- The items that a map with its stacks lists are in the log. -/
theorem Stacks.mem_log (h : Stacks piles log) {items : List α} (hk : (k, items) ∈ piles.toList)
    (ha : items.head? = some a) : (k, a) ∈ log := by
  refine mem_under_iff.1 (List.mem_of_getLast? ?_)
  rw [← h.head?_eq, TreeMap.mem_toList_iff_getElem?_eq_some.1 hk]
  exact ha

/-- The latest items are listed in the order of their names. -/
theorem Stacks.pairwise_toList {r : α → α → Prop} (h : Stacks piles log)
    (hr : ∀ k a l b, compare k l = .lt → (k, a) ∈ log → (l, b) ∈ log → r a b) :
    (piles.toList.filterMap fun entry => entry.2.head?).Pairwise r := by
  rw [List.pairwise_filterMap]
  refine TreeMap.ordered_keys_toList.imp_of_mem ?_
  rintro ⟨k, items⟩ ⟨l, others⟩ hk hl hlt a ha b hb
  exact hr k a l b hlt (h.mem_log hk ha) (h.mem_log hl hb)

end Stacks

/-! ### Two levels -/

namespace Index

variable {index : Index} {log : List (String × Ref)} {name : String} {r s : Ref}

/-- The modules that a log has under a name, each under its revision. -/
def revisionsUnder (name : String) (log : List (String × Ref)) : List (Option Date × Ref) :=
  (under name log).map fun r => (r.revision, r)

/-- The index has a name exactly if the log has, and the stacks of its revisions hold what the log
has under it. -/
def Logs (index : Index) (log : List (String × Ref)) : Prop :=
  ∀ name : String, match index[name]? with
    | none => under name log = []
    | some revisions => under name log ≠ [] ∧ Stacks revisions (revisionsUnder name log)

/-- The stacks under a name, none of them if the index has not the name. -/
theorem Logs.piles (h : index.Logs log) (name : String) :
    Stacks (index[name]?.getD ∅) (revisionsUnder name log) := by
  have hn := h name
  cases hi : index[name]? with
  | none =>
    rw [hi] at hn
    simp only at hn
    rw [revisionsUnder, hn]
    exact Stacks.empty
  | some revisions =>
    rw [hi] at hn
    exact hn.2

theorem Logs.empty : Logs ∅ [] := by
  intro name
  simp [under]

/-- Adding a module is adding it to the log. -/
theorem Logs.add (h : index.Logs log) (name : String) (r : Ref) :
    (index.add name r).Logs (log ++ [(name, r)]) := by
  intro other
  rw [Index.add, TreeMap.getElem?_alter]
  by_cases hk : name = other
  · subst hk
    have one : under name [(name, r)] = [r] := by simp [under]
    rw [if_pos Std.ReflCmp.compare_self]
    refine ⟨by simp [under], ?_⟩
    have := (h.piles name).push r.revision r
    rwa [revisionsUnder, under_append, one, List.map_append]
  · have hne : compare name other ≠ .eq := fun e => hk (LawfulEqOrd.eq_of_compare e)
    have hu : under other (log ++ [(name, r)]) = under other log := by
      simp [under, hk]
    rw [if_neg hne, revisionsUnder, hu]
    exact h other

/-- Dropping a model is taking its modules out of the log. -/
theorem Logs.drop (h : index.Logs log) (modelId : String) :
    (index.drop modelId).Logs (log.filter fun entry => entry.2.model.id != modelId) := by
  intro name
  have hn := h name
  have hu : under name (log.filter fun entry => entry.2.model.id != modelId) =
      (under name log).filter fun r => r.model.id != modelId :=
    under_filter (fun r : Ref => r.model.id != modelId) name log
  rw [Index.drop, TreeMap.getElem?_filterMap', revisionsUnder, hu]
  cases hi : index[name]? with
  | none =>
    rw [hi] at hn
    simp only at hn
    simp [hn]
  | some revisions =>
    rw [hi] at hn
    have left := hn.2.keep fun r : Ref => r.model.id != modelId
    have hlog : ((revisionsUnder name log).filter fun entry => entry.2.model.id != modelId) =
        ((under name log).filter fun r => r.model.id != modelId).map fun r => (r.revision, r) := by
      rw [revisionsUnder, List.filter_map]
      rfl
    rw [hlog] at left
    have hempty := left.isEmpty_iff
    rw [List.map_eq_nil_iff] at hempty
    rw [Option.bind_some, dropRevisions]
    generalize (revisions.filterMap fun _ items => kept (fun r => r.model.id != modelId) items) =
      remaining at left hempty ⊢
    -- A name goes with the last of its revisions.
    by_cases he : remaining.isEmpty = true
    · simp only [he, if_true]
      exact hempty.1 he
    · simp only [he]
      exact ⟨fun hnil => he (hempty.2 hnil), left⟩

/-! ### Scans of a log -/

/-- The latest module of a revision. -/
def latestOf? (revision : Option Date) (modules : List Ref) : Option Ref :=
  (modules.filter fun r => r.revision = revision).getLast?

/-- The latest module without a revision if there is one, else the latest of those whose revision no
other exceeds. -/
def scan? (modules : List Ref) : Option Ref :=
  latestOf? none modules <|>
    (modules.filter fun r => modules.all fun s => (compare s.revision r.revision).isLE).getLast?

/-- A scan selects one of the modules. -/
theorem mem_of_scan? {modules : List Ref} (h : scan? modules = some r) : r ∈ modules := by
  unfold scan? latestOf? at h
  cases hl : (modules.filter fun r => r.revision = none).getLast? with
  | some s =>
    rw [hl] at h
    cases h
    exact (List.mem_filter.1 (List.mem_of_getLast? hl)).1
  | none =>
    rw [hl] at h
    exact (List.mem_filter.1 (List.mem_of_getLast? h)).1

/-- Beside a module whose revision no other exceeds, just the modules of the same revision are
exceeded by none. -/
theorem all_isLE_eq {modules : List Ref} (hr : r ∈ modules)
    (hmax : ∀ s ∈ modules, (compare s.revision r.revision).isLE) {s : Ref} (hs : s ∈ modules) :
    (modules.all fun t => (compare t.revision s.revision).isLE) =
      decide (s.revision = r.revision) := by
  rw [Bool.eq_iff_iff, decide_eq_true_iff, List.all_eq_true]
  constructor
  · intro hall
    exact LawfulEqOrd.eq_of_compare (Std.OrientedCmp.isLE_antisymm (hmax s hs) (hall r hr))
  · intro heq
    rw [heq]
    exact hmax

/-- What a scan selects does not depend on the order of the revisions, as long as those that provide
the same one come in the same order. -/
theorem scan?_congr {modules others : List Ref} (hperm : modules.Perm others)
    (h : ∀ revision, modules.filter (fun r => r.revision = revision) =
      others.filter fun r => r.revision = revision) : scan? modules = scan? others := by
  have hall (r : Ref) : (modules.all fun s => (compare s.revision r.revision).isLE) =
      others.all fun s => (compare s.revision r.revision).isLE := hperm.all_eq
  have hgreatest :
      modules.filter (fun r => modules.all fun s => (compare s.revision r.revision).isLE) =
        others.filter fun r => others.all fun s => (compare s.revision r.revision).isLE := by
    simp only [← hall]
    by_cases hnone : ∃ r ∈ modules,
        (modules.all fun s => (compare s.revision r.revision).isLE) = true
    · -- All that no other exceeds have one revision, and of that there are the same.
      obtain ⟨r, hr, hmax⟩ := hnone
      have hsame : ∀ s ∈ modules,
          (modules.all fun t => (compare t.revision s.revision).isLE) =
            decide (s.revision = r.revision) :=
        fun s hs => all_isLE_eq hr (List.all_eq_true.1 hmax) hs
      rw [List.filter_congr hsame, List.filter_congr fun s hs => hsame s (hperm.mem_iff.2 hs), h]
    · have hempty (refs : List Ref) (hsub : ∀ r ∈ refs, r ∈ modules) : refs.filter (fun r =>
          modules.all fun s => (compare s.revision r.revision).isLE) = [] :=
        List.filter_eq_nil_iff.2 fun r hr hmax => hnone ⟨r, hsub r hr, hmax⟩
      rw [hempty modules fun _ => id, hempty others fun r hr => hperm.mem_iff.2 hr]
  rw [scan?, scan?, latestOf?, latestOf?, h none, hgreatest]

theorem under_map_revision (revision : Option Date) (modules : List Ref) :
    under revision (modules.map fun r => (r.revision, r)) =
      modules.filter fun r => r.revision = revision := by
  rw [under, List.filter_map, List.map_map]
  simp [Function.comp_def]

/-- A revision is found like by a scan of the log. -/
theorem Logs.ofRevision?_eq (h : index.Logs log) (name : String) (revision : Option Date) :
    index.ofRevision? name revision = latestOf? revision (under name log) := by
  rw [latestOf?, ← under_map_revision, ← revisionsUnder, ← (h.piles name).head?_eq, ofRevision?]
  cases index[name]? with
  | none => rfl
  | some revisions => rfl

/-- Of several revisions a scan finds the one that is selected among their stacks. -/
theorem selectRevision?_eq {revisions : Revisions} {modules : List Ref}
    (h : Stacks revisions (modules.map fun r => (r.revision, r))) :
    selectRevision? revisions = scan? modules := by
  have htop (revision : Option Date) :
      revisions[revision]?.bind List.head? = latestOf? revision modules := by
    rw [h.head?_eq, under_map_revision, latestOf?]
  have hmem (revision : Option Date) :
      revision ∈ revisions ↔ ∃ r ∈ modules, r.revision = revision := by
    simp [h.mem_iff]
  unfold selectRevision? scan?
  rw [← htop none]
  have hnone : revisions[(none : Option Date)]? = none ∨
      ∃ r rest, revisions[(none : Option Date)]? = some (r :: rest) := by
    rw [h none]
    cases (under none (modules.map fun r => (r.revision, r))).reverse with
    | nil => exact .inl rfl
    | cons r rest => exact .inr ⟨r, rest, rfl⟩
  -- A module without a revision goes before all others.
  obtain hnone | ⟨r, rest, hr⟩ := hnone
  · rw [hnone]
    change (revisions.maxKey?.bind fun revision => revisions[revision]?).bind List.head? = _
    cases hmax : revisions.maxKey? with
    | none =>
      have hempty := h.isEmpty_iff.1 (TreeMap.maxKey?_eq_none_iff.1 hmax)
      rw [List.map_eq_nil_iff.1 hempty]
      rfl
    | some greatest =>
      obtain ⟨hin, hle⟩ := TreeMap.maxKey?_eq_some_iff_mem_and_forall.1 hmax
      obtain ⟨s, hs, rfl⟩ := (hmem greatest).1 hin
      change revisions[s.revision]?.bind List.head? = List.getLast? _
      rw [htop, latestOf?]
      congr 1
      refine List.filter_congr fun r hr => ?_
      exact (all_isLE_eq hs (fun t ht => hle _ ((hmem _).2 ⟨t, ht, rfl⟩)) hr).symm
  · rw [hr]
    rfl

/-- Without a revision, a module is found like by a scan of the log. -/
theorem Logs.select?_eq (h : index.Logs log) (name : String) :
    index.select? name = scan? (under name log) := by
  have hn := h name
  rw [select?]
  cases hi : index[name]? with
  | none =>
    rw [hi] at hn
    simp only at hn
    rw [hn]
    rfl
  | some revisions =>
    rw [hi] at hn
    exact selectRevision?_eq hn.2

/-- Only modules of the log are selected. -/
theorem Logs.mem_of_select? (h : index.Logs log) {name : String} (hr : index.select? name = some r) :
    (name, r) ∈ log := by
  rw [h.select?_eq] at hr
  exact mem_under_iff.1 (mem_of_scan? hr)

/-- The selected module of every name is listed, and no other. -/
theorem mem_selected_iff : r ∈ index.selected ↔ ∃ name, index.select? name = some r := by
  simp only [selected, List.mem_filterMap, Prod.exists, TreeMap.mem_toList_iff_getElem?_eq_some,
    select?, Option.bind_eq_some_iff]

/-- A search through the selected modules goes by the order of the names. -/
theorem findSome?_selected {β : Type} (index : Index) (f : Ref → Option β) :
    index.selected.findSome? f =
      (index.keys.filter fun name => ((index.select? name).bind f).isSome).findSome? fun name =>
        (index.select? name).bind f := by
  have hkeys : index.selected.findSome? f =
      index.keys.findSome? fun name => (index.select? name).bind f := by
    rw [selected, List.findSome?_filterMap, ← TreeMap.map_fst_toList_eq_keys, List.findSome?_map]
    refine List.findSome?_congr fun entry hentry => ?_
    rw [Function.comp_apply, select?, TreeMap.mem_toList_iff_getElem?_eq_some.1 hentry]
    rfl
  rw [hkeys, List.findSome?_filter_isSome fun name => (index.select? name).bind f]

/-- Where the same is found for every name, the same is found in the order of the names. -/
theorem findSome?_selected_congr {β : Type} {other : Index} {f : Ref → Option β}
    (h : ∀ name, (index.select? name).bind f = (other.select? name).bind f) :
    index.selected.findSome? f = other.selected.findSome? f := by
  -- The names under which something is found are the same, and either list has them sorted.
  have hmem (index : Index) (name : String) :
      name ∈ (index.keys.filter fun name => ((index.select? name).bind f).isSome) ↔
        ((index.select? name).bind f).isSome = true := by
    rw [List.mem_filter, TreeMap.mem_keys, and_iff_right_iff_imp]
    intro hsome
    obtain ⟨r, hr⟩ := Option.isSome_iff_exists.1 (Option.isSome_of_isSome_bind hsome)
    obtain ⟨revisions, hrevisions, -⟩ := Option.bind_eq_some_iff.1 hr
    exact TreeMap.mem_iff_isSome_getElem?.2 (by rw [hrevisions]; rfl)
  have hsorted (index : Index) :
      (index.keys.filter fun name => ((index.select? name).bind f).isSome).Pairwise fun a b =>
        compare a b = .lt :=
    TreeMap.ordered_keys.filter _
  have hnodup (index : Index) :
      (index.keys.filter fun name => ((index.select? name).bind f).isSome).Nodup := by
    refine (hsorted index).imp ?_
    rintro a _ hlt rfl
    cases hlt.symm.trans Std.ReflCmp.compare_self
  rw [findSome?_selected, findSome?_selected, List.Perm.eq_of_pairwise ?_ (hsorted index)
    (hsorted other) ((List.perm_ext_iff_of_nodup (hnodup index) (hnodup other)).2 fun name => ?_)]
  · exact List.findSome?_congr fun name _ => h name
  · rintro a b - - hlt hgt
    exact absurd hlt (Std.OrientedCmp.not_lt_of_lt hgt)
  · rw [hmem, hmem, h]

/-! ### Listings -/

/-- The latest module of every name and revision is listed, and no other. -/
theorem Logs.mem_all_iff (h : index.Logs log) :
    r ∈ index.all ↔ ∃ name revision, latestOf? revision (under name log) = some r := by
  simp only [← h.ofRevision?_eq, ofRevision?, latest?, Index.all, List.mem_flatMap,
    List.mem_filterMap, Prod.exists, TreeMap.mem_toList_iff_getElem?_eq_some,
    Option.bind_eq_some_iff]
  constructor
  · rintro ⟨name, revisions, hname, revision, items, hrevision, hr⟩
    exact ⟨name, revision, revisions, hname, items, hrevision, hr⟩
  · rintro ⟨name, revision, revisions, hname, items, hrevision, hr⟩
    exact ⟨name, revisions, hname, revision, items, hrevision, hr⟩

/-- Modules whose log names them by a function are listed in the order of their names, those of one
name in the order of their revisions. -/
theorem Logs.pairwise_all (h : index.Logs log) (nameOf : Ref → String)
    (hlog : ∀ entry ∈ log, entry.1 = nameOf entry.2) :
    index.all.Pairwise fun r s => compare (nameOf r) (nameOf s) = .lt ∨
      nameOf r = nameOf s ∧ compare r.revision s.revision = .lt := by
  have stacks_of {name : String} {revisions : Revisions} (hname : (name, revisions) ∈ index.toList) :
      Stacks revisions (revisionsUnder name log) := by
    have := h.piles name
    rwa [TreeMap.mem_toList_iff_getElem?_eq_some.1 hname] at this
  have mem_revisionsUnder {name : String} {revision : Option Date} {r : Ref}
      (hr : (revision, r) ∈ revisionsUnder name log) : r.revision = revision ∧ nameOf r = name := by
    obtain ⟨_, hmem, ⟨⟩⟩ := List.mem_map.1 hr
    exact ⟨rfl, (hlog _ (mem_under_iff.1 hmem)).symm⟩
  have nameOf_mem {name : String} {revisions : Revisions} {r : Ref}
      (hname : (name, revisions) ∈ index.toList)
      (hr : r ∈ revisions.toList.filterMap fun revision => revision.2.head?) :
      nameOf r = name := by
    obtain ⟨⟨revision, items⟩, hrevision, hr⟩ := List.mem_filterMap.1 hr
    exact (mem_revisionsUnder ((stacks_of hname).mem_log hrevision hr)).2
  -- Within a name the revisions decide, between two names the names.
  rw [Index.all, List.pairwise_flatMap]
  constructor
  · rintro ⟨name, revisions⟩ hname
    refine (stacks_of hname).pairwise_toList ?_
    intro k a l b hlt ha hb
    obtain ⟨rfl, hna⟩ := mem_revisionsUnder ha
    obtain ⟨rfl, hnb⟩ := mem_revisionsUnder hb
    exact .inr ⟨hna.trans hnb.symm, hlt⟩
  · refine TreeMap.ordered_keys_toList.imp_of_mem ?_
    rintro ⟨name, revisions⟩ ⟨name', revisions'⟩ hname hname' hlt r hr s hs
    rw [nameOf_mem hname hr, nameOf_mem hname' hs]
    exact .inl hlt

end Index

end YangBinding
