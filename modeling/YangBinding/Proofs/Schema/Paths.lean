import YangBinding.Proofs.Schema.Resolution

/-!
# The path of a node leads back to it

The path of a node names what is passed on the way up, choices and cases included; at an augment the
way goes on from the target. Read from the other end it is a way down, on which each name is looked
for among what a node declares and then among what augments contribute to it. The two ways pass the
same nodes if names tell apart what a node declares and what is contributed to it, and if nothing is
contributed to an augment, of which no path would know. The module at the end of the way up need not
be the one that the node was declared in.

## Main definitions

* `Ref.steps` — where a name of a path can lead from a node
* `Ref.top` — the module in which the way up ends
* `Model.Navigable` — names tell the nodes of a model apart
* `qualify` — a name of a path behind a qualification

## Main results

* `pathNames_join`, `qualifiedName_qualify` — a path is read as the names it was joined from
* `Ref.exists_above` — one move up, past an augment if there is one, is undone by one step down
* `Ref.walk_top` — so the whole way up is undone by the way down
* `Draft.resolve_targetPath` — the path of a node, with any qualifications, resolves to the node
-/

namespace YangBinding

namespace Text

variable {sep : Char} {piece : List Char}

/-! ### Joined pieces -/

theorem split_of_not_mem (h : sep ∉ piece) : split sep piece = [piece] := by
  induction piece with
  | nil => rfl
  | cons c piece ih =>
    obtain ⟨hc, hpiece⟩ := not_or.1 (List.mem_cons.not.1 h)
    rw [split, if_neg (Ne.symm hc), ih hpiece]

theorem split_append (h : sep ∉ piece) (cs : List Char) :
    split sep (piece ++ sep :: cs) = piece :: split sep cs := by
  induction piece with
  | nil => simp [split]
  | cons c piece ih =>
    obtain ⟨hc, hpiece⟩ := not_or.1 (List.mem_cons.not.1 h)
    rw [List.cons_append, split, if_neg (Ne.symm hc), ih hpiece]

/-- Splitting undoes joining if no piece has a separator in it. -/
theorem split_intercalate {pieces : List (List Char)} (hne : pieces ≠ [])
    (h : ∀ piece ∈ pieces, sep ∉ piece) : split sep (List.intercalate [sep] pieces) = pieces := by
  induction pieces with
  | nil => exact absurd rfl hne
  | cons piece rest ih =>
    obtain ⟨hpiece, hrest⟩ := List.forall_mem_cons.1 h
    cases rest with
    | nil => rw [List.intercalate_singleton, split_of_not_mem hpiece]
    | cons next rest =>
      rw [List.intercalate_cons_cons, List.append_assoc, List.singleton_append,
        split_append hpiece, ih (List.cons_ne_nil _ _) hrest]

theorem cut?_of_not_mem (h : sep ∉ piece) : cut? sep piece = none := by
  refine Option.eq_none_iff_forall_ne_some.2 fun ⟨before, after⟩ hcut => ?_
  obtain ⟨rfl, -⟩ := cut?_eq_some_iff.1 hcut
  simp at h

end Text

namespace Schema

section Names

variable {name : String} {names : List String}

/-! ### Names of a path -/

/-- A text that can stand before the colon of a name. -/
structure IsQualification (text : String) : Prop where
  no_slash : '/' ∉ text.toList
  no_colon : ':' ∉ text.toList

/-- A name that can stand between slashes, and behind the colon of a qualification. -/
structure IsPathName (name : String) : Prop extends IsQualification name where
  ne_empty : name ≠ ""

instance (text : String) : Decidable (IsQualification text) :=
  decidable_of_iff ('/' ∉ text.toList ∧ ':' ∉ text.toList)
    ⟨fun ⟨hs, hc⟩ => ⟨hs, hc⟩, fun ⟨hs, hc⟩ => ⟨hs, hc⟩⟩

instance (name : String) : Decidable (IsPathName name) :=
  decidable_of_iff (IsQualification name ∧ name ≠ "")
    ⟨fun ⟨hq, hne⟩ => ⟨hq, hne⟩, fun ⟨hq, hne⟩ => ⟨hq, hne⟩⟩

/-- A name of a path behind a qualification, if there is one. -/
def qualify (qualification : Option String) (name : String) : String :=
  match qualification with
  | some q => q ++ ":" ++ name
  | none => name

/-- A path is read as the names that it was joined from. -/
theorem pathNames_join (h : ∀ name ∈ names, name ≠ "" ∧ '/' ∉ name.toList) :
    pathNames ("/" ++ "/".intercalate names) = names := by
  have htext : ("/" ++ "/".intercalate names).toList =
      '/' :: List.intercalate ['/'] (names.map String.toList) := by
    rw [String.toList_append, String.toList_intercalate]
    rfl
  cases names with
  | nil => rfl
  | cons first rest =>
    have hsplit : Text.split '/' (List.intercalate ['/'] ((first :: rest).map String.toList)) =
        (first :: rest).map String.toList := by
      refine Text.split_intercalate (by simp) fun piece hpiece => ?_
      obtain ⟨name, hname, rfl⟩ := List.mem_map.1 hpiece
      exact (h name hname).2
    have hread : ((first :: rest).map String.toList).map String.ofList = first :: rest := by
      rw [List.map_map]
      exact (List.map_congr_left fun _ _ => String.ofList_toList).trans (List.map_id _)
    rw [pathNames, Text.pieces, htext, Text.split, if_pos rfl, hsplit, List.map_cons, hread,
      List.filter_cons_of_neg (by decide), List.filter_eq_self]
    exact fun name hname => by simpa using (h name hname).1

/-- A qualified name is read as its two parts. -/
theorem qualifiedName_qualify {q : Option String} (hq : ∀ p ∈ q, IsQualification p)
    (hname : ':' ∉ name.toList) : qualifiedName (qualify q name) = (q, name) := by
  cases q with
  | none => rw [qualify, qualifiedName, Text.halves?, Text.cut?_of_not_mem hname, Option.map_none]
  | some p =>
    have hcut : Text.cut? ':' (p ++ ":" ++ name).toList = some (p.toList, name.toList) := by
      refine Text.cut?_eq_some_iff.2 ⟨?_, (hq p rfl).no_colon⟩
      rw [String.toList_append, String.toList_append, List.append_assoc]
      rfl
    rw [qualify, qualifiedName, Text.halves?, hcut, Option.map_some, String.ofList_toList,
      String.ofList_toList]

/-- A qualified name still stands between two slashes. -/
theorem qualify_ne_empty {q : Option String} (hq : ∀ p ∈ q, IsQualification p)
    (hname : IsPathName name) : qualify q name ≠ "" ∧ '/' ∉ (qualify q name).toList := by
  cases q with
  | none => exact ⟨hname.ne_empty, hname.no_slash⟩
  | some p =>
    refine ⟨?_, ?_⟩
    · rw [qualify, ne_eq, ← String.toList_inj]
      simp
    · simpa [qualify] using ⟨(hq p rfl).no_slash, hname.no_slash⟩

/-- Qualifications of later names say nothing. -/
theorem foldlM_qualify {qualifications : List (Option String)} {r : Ref}
    (hlen : qualifications.length = names.length)
    (hq : ∀ q ∈ qualifications, ∀ p ∈ q, IsQualification p)
    (hnames : ∀ name ∈ names, ':' ∉ name.toList) :
    (List.zipWith qualify qualifications names).foldlM
        (fun (r : Ref) name => r.pathChild? (qualifiedName name).2) r =
      names.foldlM (fun r name => r.pathChild? name) r := by
  induction qualifications generalizing names r with
  | nil =>
    obtain rfl := List.length_eq_zero_iff.1 hlen.symm
    rfl
  | cons q qualifications ih =>
    obtain ⟨name, names, rfl⟩ := List.exists_cons_of_length_eq_add_one hlen.symm
    obtain ⟨hq, hqs⟩ := List.forall_mem_cons.1 hq
    obtain ⟨hname, hnames⟩ := List.forall_mem_cons.1 hnames
    rw [List.zipWith_cons_cons, List.foldlM_cons, List.foldlM_cons, qualifiedName_qualify hq hname]
    exact bind_congr fun c => ih (by simpa using hlen) hqs hnames

end Names

namespace Ref

variable {r c : Ref}

/-! ### One step -/

/-- Where a name of a path can lead from a node, in the order of the search. -/
def steps (r : Ref) : List Ref := r.declared ++ r.augments.flatMap children

theorem pathChild?_eq_find? (r : Ref) (name : String) :
    r.pathChild? name = r.steps.find? fun c => c.name == name := by
  rw [pathChild?, Option.orElse_eq_orElse, ← Option.or_eq_orElse, steps, List.find?_append]
  rfl

/-- Where names are distinct, the name of a step leads to it. -/
theorem pathChild?_of_mem_steps (hn : (r.steps.map name).Nodup) (hc : c ∈ r.steps) :
    r.pathChild? c.name = some c := by
  rw [pathChild?_eq_find?]
  refine List.find?_eq_some_of_unique hc (by simp) fun b hb hname => ?_
  exact List.eq_of_nodup_map hn hb hc (by simpa using hname)

/-! ### The way up -/

variable {q : Ref}

/-- The module in which the way up ends. -/
def top (r : Ref) : Ref :=
  match h : r.up? with
  | none => r
  | some above =>
    have := index_lt_of_up? h
    above.top
termination_by r.index.val

theorem top_of_up? (h : r.up? = some q) : r.top = q.top := by
  rw [top]
  split
  · next hn => simp [h] at hn
  · next p hp =>
    rw [h] at hp
    cases hp
    rfl

theorem top_of_module (h : r.kind = .module) : r.top = r := by
  have hup : r.up? = none := by simp [up?, h]
  rw [top]
  split
  · rfl
  · next p hp => simp [hup] at hp

/-- The nodes that the path of a node names, the node first. -/
def named (r : Ref) : List Ref := r.ancestry.filter fun a => a.kind != .augment

theorem targetPath_eq (r : Ref) :
    r.targetPath = "/" ++ "/".intercalate (r.named.reverse.map name) := rfl

theorem named_of_module (h : r.kind = .module) : r.named = [] := by
  simp [named, ancestry, h]

end Ref

/-- Names tell apart the modules of a model, and for each of its nodes what a path can lead to from
there; they can stand in a path; and no augment contributes to an augment. -/
structure Model.Navigable (m : Model) : Prop where
  modules : (m.moduleRefs.map Ref.name).Nodup
  names : ∀ r ∈ m.refs, r.kind ≠ .augment → IsPathName r.name
  targets : ∀ a ∈ m.refs, ∀ t ∈ a.target?, t.kind ≠ .augment
  steps : ∀ r ∈ m.refs, (r.steps.map Ref.name).Nodup

namespace Ref

variable {r : Ref}

/-- The way up from a node that has a name leads, past an augment if there is one, to another such
node or a module, from which one step leads down again. -/
theorem exists_above (h : r.model.Linked) (hnav : r.model.Navigable) (hk : r.kind ≠ .module)
    (ha : r.kind ≠ .augment) :
    ∃ q : Ref, q.model = r.model ∧ q.index.val < r.index.val ∧ q.kind ≠ .augment ∧ r ∈ q.steps ∧
      r.named = r :: q.named ∧ r.top = q.top := by
  obtain ⟨p, hp⟩ := exists_up? h hk
  have hmodel := model_of_up? hp
  have hchild : r ∈ p.children :=
    (mem_children_iff (hmodel ▸ h)).2 ((up?_eq_parent? hk ha).symm.trans hp)
  have hnamed : r.named = r :: p.named := by
    rw [named, ancestry_of_up? hk hp, List.filter_cons_of_pos (by simpa using ha), named]
  by_cases hpa : p.kind = .augment
  · -- What an augment contributes is a step from the target.
    obtain ⟨t, ht⟩ := exists_up? (hmodel ▸ h) (show p.kind ≠ .module by simp [hpa])
    have htarget : p.target? = some t := by simpa [up?, hpa] using ht
    have hmodel' := (model_of_up? ht).trans hmodel
    refine ⟨t, hmodel', (index_lt_of_up? ht).trans (index_lt_of_up? hp),
      hnav.targets p (mem_refs_iff.2 hmodel) t htarget, ?_, ?_, ?_⟩
    · refine List.mem_append_right _ (List.mem_flatMap.2 ⟨p, ?_, hchild⟩)
      exact (mem_augments_iff (hmodel' ▸ h)).2 htarget
    · rw [hnamed, named, ancestry_of_up? (by simp [hpa]) ht,
        List.filter_cons_of_neg (by simp [hpa]), named]
    · rw [top_of_up? hp, top_of_up? ht]
  · refine ⟨p, hmodel, index_lt_of_up? hp, hpa, ?_, hnamed, top_of_up? hp⟩
    exact List.mem_append_left _ (List.mem_filter.2 ⟨hchild, by simpa using ha⟩)

/-- The way down from the module at the top, along the names of the path, ends at the node. -/
theorem walk_top (h : r.model.Linked) (hnav : r.model.Navigable) (ha : r.kind ≠ .augment) :
    r.top.kind = .module ∧ r.top.model = r.model ∧ (∀ c ∈ r.named, IsPathName c.name) ∧
      (r.named.reverse.map name).foldlM (fun q name => q.pathChild? name) r.top = some r := by
  -- Each name but the last belongs to an earlier node, so the induction goes along the numbers.
  induction hi : r.index.val using Nat.strongRecOn generalizing r with
  | ind i ih =>
    by_cases hk : r.kind = .module
    · rw [top_of_module hk, named_of_module hk]
      exact ⟨hk, rfl, by simp, rfl⟩
    · obtain ⟨q, hmodel, hlt, hqa, hstep, hnamed, htop⟩ := exists_above h hnav hk ha
      obtain ⟨hkind, htopm, hnames, hwalk⟩ :=
        ih q.index.val (hi ▸ hlt) (hmodel ▸ h) (hmodel ▸ hnav) hqa rfl
      rw [htop, hnamed, List.reverse_cons, List.map_append, List.foldlM_append, hwalk]
      refine ⟨hkind, htopm.trans hmodel, ?_, ?_⟩
      · exact List.forall_mem_cons.2 ⟨hnav.names r r.mem_refs_self ha, hnames⟩
      · have hchild := pathChild?_of_mem_steps (hnav.steps q (mem_refs_iff.2 hmodel)) hstep
        simp [hchild]

end Ref

namespace Draft

variable {d : Draft} {m : Ref} {first : String} {rest : List String}

/-- A path whose first name is qualified by a module is walked from there. -/
theorem resolve?_qualified (h : d.model.Linked) (hn : (d.model.moduleRefs.map Ref.name).Nodup)
    (hm : m.model = d.model) (hk : m.kind = .module) (hmodule : IsPathName m.name)
    (hnames : ∀ name ∈ first :: rest, IsPathName name) {qualifications : List (Option String)}
    (hlen : qualifications.length = rest.length)
    (hq : ∀ q ∈ qualifications, ∀ p ∈ q, IsQualification p) :
    d.resolve? ("/" ++ "/".intercalate
        (qualify (some m.name) first :: List.zipWith qualify qualifications rest)) =
      (first :: rest).foldlM (fun q name => q.pathChild? name) m := by
  obtain ⟨hfirst, hrest⟩ := List.forall_mem_cons.1 hnames
  have hq' : ∀ p ∈ some m.name, IsQualification p := by
    rintro p ⟨⟩
    exact hmodule.toIsQualification
  have hread : pathNames ("/" ++ "/".intercalate
      (qualify (some m.name) first :: List.zipWith qualify qualifications rest)) =
      qualify (some m.name) first :: List.zipWith qualify qualifications rest := by
    refine pathNames_join (List.forall_mem_cons.2 ⟨qualify_ne_empty hq' hfirst, ?_⟩)
    intro text htext
    rw [← List.map_uncurry_zip_eq_zipWith] at htext
    obtain ⟨⟨q, name⟩, hmem, rfl⟩ := List.mem_map.1 htext
    obtain ⟨hqm, hname⟩ := List.of_mem_zip hmem
    exact qualify_ne_empty (hq q hqm) (hrest name hname)
  -- The qualification of the first name leaves one module to start from.
  have hmodules : (d.model.moduleRefs.filter fun x => (some m.name).all fun n => n == x.name) =
      [m] := by
    rw [← List.filter_key_eq_singleton hn ((Ref.mem_moduleRefs_iff h).2 ⟨hm, hk⟩)]
    refine List.filter_congr fun x _ => ?_
    simp [eq_comm, Bool.beq_eq_decide_eq]
  rw [resolve?, hread]
  simp only [qualifiedName_qualify hq' hfirst.no_colon, hmodules, List.findSome?_singleton,
    List.foldlM_cons]
  exact bind_congr fun top => foldlM_qualify hlen hq fun name hname => (hrest name hname).no_colon

/-- Whatever commands have built a draft, if names tell its nodes apart, the path of a node resolves
to the node when its first name is qualified by the module in which the way up ends, and whatever
the later ones are qualified by. -/
theorem resolve_targetPath (id : String) (commands : List Command)
    (hnav : ((empty id).run commands).model.Navigable) (r : Ref)
    (hr : r.model = ((empty id).run commands).model) (hk : r.kind ≠ .module)
    (ha : r.kind ≠ .augment) :
    r.top.kind = .module ∧ ∃ first rest,
      r.targetPath = "/" ++ "/".intercalate (first :: rest) ∧
      (∀ name ∈ first :: rest, IsPathName name) ∧
      ∀ qualifications : List (Option String), qualifications.length = rest.length →
        (∀ q ∈ qualifications, ∀ p ∈ q, IsQualification p) →
        ((empty id).run commands).resolve ("/" ++ "/".intercalate
          (qualify (some r.top.name) first :: List.zipWith qualify qualifications rest)) =
            .ok r := by
  have h : ((empty id).run commands).model.Linked := linked_run commands (linked_empty id)
  -- The way up names at least the node itself, so there is a first name to qualify.
  obtain ⟨htop, hmodel, hnamed, hwalk⟩ := Ref.walk_top (hr ▸ h) (hr ▸ hnav) ha
  obtain ⟨q, -, -, -, -, hcons, -⟩ := Ref.exists_above (hr ▸ h) (hr ▸ hnav) hk ha
  have hnames : ∀ name ∈ r.named.reverse.map Ref.name, IsPathName name := by
    intro name hname
    obtain ⟨c, hc, rfl⟩ := List.mem_map.1 hname
    exact hnamed c (List.mem_reverse.1 hc)
  obtain ⟨first, rest, hpath⟩ : ∃ first rest, r.named.reverse.map Ref.name = first :: rest :=
    List.exists_cons_of_ne_nil (by simp [hcons])
  rw [hpath] at hnames hwalk
  refine ⟨htop, first, rest, by rw [Ref.targetPath_eq, hpath], hnames, ?_⟩
  intro qualifications hlen hq
  have hname := hnav.names r.top (Ref.mem_refs_iff.2 (hmodel.trans hr)) (by simp [htop])
  have hfound := resolve?_qualified h hnav.modules (hmodel.trans hr) htop hname hnames hlen hq
  rw [resolve, hfound, hwalk]

end Draft

/-! ### A quay

A crane stands on a quay. Its hook comes from a second module, and a third module contributes to the
hook, by way of a case of a choice. -/

namespace Quay

def commands : List Draft.Command :=
  [.addModule "quay" "urn:quay" none, .addChild 0 .container "crane",
    .addModule "hoist" "urn:hoist" none, .addAugment 2 1, .addChild 3 .container "hook",
    .addChild 4 .choice "load", .addModule "cargo" "urn:cargo" none, .addAugment 6 5,
    .addChild 7 .case "crate", .addChild 8 .leaf "weight"]

def draft : Draft := (Draft.empty "quay").run commands

/-- The weight of a crate on the hook. -/
def weightRef : Ref := ⟨draft.model, 9, by decide +kernel⟩

theorem navigable : draft.model.Navigable where
  modules := by decide +kernel
  names := by decide +kernel
  targets := by decide +kernel
  steps := by decide +kernel

end Quay

/-- The weight was declared in the module of the cargo, but its path starts on the quay. -/
theorem resolve_targetPath_weight : Quay.draft.model.Navigable ∧
    Quay.weightRef.targetPath = "/crane/hook/load/crate/weight" ∧
    Quay.draft.resolve "/quay:crane/hoist:hook/load/:crate/quay:weight" = .ok Quay.weightRef := by
  obtain ⟨-, first, rest, hpath, hnames, hresolve⟩ := Draft.resolve_targetPath "quay" Quay.commands
    Quay.navigable Quay.weightRef rfl (by decide +kernel) (by decide +kernel)
  have htarget : Quay.weightRef.targetPath = "/crane/hook/load/crate/weight" := by decide +kernel
  have htop : Quay.weightRef.top.name = "quay" := by decide +kernel
  have hread : first :: rest = ["crane", "hook", "load", "crate", "weight"] := by
    have hpieces : ∀ name ∈ first :: rest, name ≠ "" ∧ '/' ∉ name.toList := fun name hname =>
      ⟨(hnames name hname).ne_empty, (hnames name hname).no_slash⟩
    rw [← pathNames_join hpieces, ← hpath, htarget]
    decide +kernel
  obtain ⟨rfl, rfl⟩ := List.cons.inj hread
  rw [htop] at hresolve
  have hfound := hresolve [some "hoist", none, some "", some "quay"] rfl (by decide +kernel)
  exact ⟨Quay.navigable, htarget, hfound⟩

end Schema

end YangBinding
