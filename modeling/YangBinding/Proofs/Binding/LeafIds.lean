import YangBinding.Proofs.Binding.Address
import YangBinding.Proofs.Binding.Standing

/-!
# Leaf ids

A leaf is identified by the nearest class around it and its name. From the node of that class the
name leads back to the leaf if the node declares the leaf itself, because that comes before what its
augments and choices contribute, or if nothing else there goes by the name. A leaf id that ends an
object id is looked up differently: from the data node reached so far, by the name alone and without a
look at the class. There the namespace of the data node comes first, so that a leaf from elsewhere is
found only if nothing else goes by its name.

## Main definitions

* `Schema.Ref.Foremost` — a node that another one finds by its name alone
* `Registry.LeadsTo` — the steps that a leaf id appears in

## Main results

* `Registry.leafOf?_of_foremost` — the class and the name of a leaf lead to the leaf
* `Registry.childOf?_of_name` — when the name alone leads to what is below a node
* `Registry.Reachable.leafId_faithful` — when both ways of looking up a leaf id lead back to the leaf
-/

namespace YangBinding

open Schema (DataChild Kind Model Ref)
open YangBinding.Tree (NodeKey ResourceId)

/-! ### By name alone -/

/-- A node finds another one by its name alone: it declares no other of that name, or it offers no
other. -/
def Schema.Ref.Foremost (p s : Ref) : Prop :=
  (s ∈ p.children ∧ ∀ x ∈ p.children, x.isLayer = false → x.name = s.name → x = s) ∨
    (∃ e ∈ p.offers, e.node = s) ∧ ∀ e ∈ p.offers, e.node.name = s.name → e.node = s

/-- A node that tells what it declares apart by name finds all of it. -/
theorem Schema.Ref.foremost_of_parent? {p s : Ref} (h : s.model.Linked)
    (hn : (p.declared.map Ref.name).Nodup) (hp : s.parent? = some p) (hl : s.isLayer = false) :
    p.Foremost s := by
  have hs : s ∈ p.children := (Ref.mem_children_iff (Ref.model_of_parent? hp ▸ h)).2 hp
  have hdeclared {x : Ref} (hx : x ∈ p.children) (hxl : x.isLayer = false) : x ∈ p.declared := by
    refine List.mem_filter.2 ⟨hx, ?_⟩
    by_contra hk
    simp only [bne_iff_ne, ne_eq, Decidable.not_not] at hk
    simp [Ref.isLayer_eq_false_iff, hk] at hxl
  exact .inl ⟨hs, fun x hx hxl hname =>
    List.eq_of_nodup_map hn (hdeclared hx hxl) (hdeclared hs hl) hname⟩

theorem Schema.Ref.Foremost.findDataChild? {p s : Ref} (h : p.Foremost s) (hl : s.isLayer = false) :
    ∃ e, p.findDataChild? s.name none = some e ∧ e.node = s := by
  rcases h with ⟨hs, honly⟩ | ⟨⟨e, he, rfl⟩, honly⟩
  · refine ⟨{ node := s }, Ref.findDataChild?_of_own ?_, rfl⟩
    refine List.find?_eq_some_of_unique hs (by simp [hl, Schema.Id.fits_iff, Ref.name]) ?_
    intro x hx hfits
    simp only [Bool.and_eq_true, Bool.not_eq_true', Schema.Id.fits_iff] at hfits
    exact honly x hx hfits.1 hfits.2.1
  · have hfits : e.node.id.fits e.node.name none = true := Schema.Id.fits_iff.2 ⟨rfl, by simp⟩
    have hsome : (p.offers.find? fun f => f.node.id.fits e.node.name none).isSome = true :=
      List.find?_isSome.2 ⟨e, he, hfits⟩
    obtain ⟨f, hf⟩ := Option.isSome_iff_exists.1 hsome
    refine ⟨f, (Ref.findDataChild?_eq ..).trans hf, honly f (List.mem_of_find?_eq_some hf) ?_⟩
    exact (Schema.Id.fits_iff.1
      (List.find?_some (p := fun f : DataChild => f.node.id.fits e.node.name none) hf)).1

namespace Registry

variable {reg : Registry} {m : Model} {p q s : Ref} {c : String} {li : LeafId} {step : Step}

/-- A step is to the leaf of a leaf id, or to an entry of the leaf-list. -/
def LeadsTo (step : Step) (li : LeafId) : Prop := step = .leaf li ∨ ∃ v, step = .leafEntry li v

/-! ### From the class around a leaf -/

/-- The class and the name of a leaf lead to the leaf, if the node of the class finds it by its name. -/
theorem leafOf?_of_foremost (hk : s.kind.isLeafLike = true)
    (hli : leafId s = .ok li) (howner : reg.nodeOfClass? li.owner = some p) (hp : p.Foremost s) :
    reg.leafOf? li = some s := by
  obtain ⟨e, he, rfl⟩ := hp.findDataChild? (Ref.isLayer_of_isLeafLike hk)
  rw [leafOf?, howner, Option.bind_some, name_of_leafId hli, he]
  simp [hk]

/-- The class around a leaf is that of the node that declares it, if that has one. -/
theorem leafId_of_parent (hp : s.parent? = some p) (hc : p.className = some c) :
    leafId s = .ok { owner := c, name := s.name } := by
  rw [leafId, Ref.enclosingClass?, Ref.enclosing_eq hp, List.findSome?_cons, hc]
  rfl

/-- What a leaf id leads to is also what an object id leads to that starts with it. -/
theorem locateFirst_of_leafOf? (hl : reg.leafOf? li = some s) (hs : LeadsTo step li) :
    reg.locateFirst step = .ok s := by
  obtain ⟨owner, howner, hl⟩ := Option.bind_eq_some_iff.1 hl
  obtain ⟨hl, -⟩ := Option.filter_eq_some_iff.1 hl
  obtain ⟨e, he, rfl⟩ := Option.map_eq_some_iff.1 hl
  exact locateFirst_eq_ok_iff.2 (.inr ⟨li, owner, e, hs, howner, he, rfl⟩)

/-! ### From the data node above a leaf -/

/-- A name alone leads to what has the namespace of the data node above, or to what alone has the name
there. -/
theorem childOf?_of_name {e : DataChild} {n : String} (hqn : q.ns = some n)
    (he : e ∈ reg.below (some q)) (hids : ((reg.below (some q)).map fun e => e.node.id).Nodup)
    (hsame : e.node.ns = q.ns ∨
      ∀ f ∈ reg.below (some q), f.node.name = e.node.name → f.node = e.node) :
    reg.childOf? (some q) e.node.name none = some e := by
  have heq_of_id {f : DataChild} (hf : f ∈ reg.below (some q)) (hid : f.node.id = e.node.id) : f = e :=
    List.eq_of_nodup_map hids hf he hid
  rw [childOf?, Option.bind_some, hqn, preferredChild?]
  -- Either it is found in the namespace of the node above, or it is the only candidate.
  rcases hsame with hns | honly
  · have hfirst : reg.dataChild? (some q) e.node.name (some n) = some e := by
      rw [dataChild?_eq_find?]
      refine List.find?_eq_some_of_unique he ?_ fun f hf hfits => heq_of_id hf ?_
      · exact (hns.trans hqn) ▸ Schema.Id.fits_self e.node.id
      · rw [← hns.trans hqn] at hfits
        exact Schema.Id.eq_of_fits (hns.trans hqn) hfits
    rw [hfirst]
    rfl
  · have honly' {f : DataChild} {ns : Option String} (hf : f ∈ reg.below (some q))
        (hfits : f.node.id.fits e.node.name ns = true) : f = e :=
      heq_of_id hf (congrArg Ref.id (honly f hf (Schema.Id.fits_iff.1 hfits).1))
    have hnone : reg.dataChild? (some q) e.node.name none = some e := by
      rw [dataChild?_eq_find?]
      exact List.find?_eq_some_of_unique he (Schema.Id.fits_iff.2 ⟨rfl, by simp⟩) fun f hf => honly' hf
    cases hfirst : reg.dataChild? (some q) e.node.name (some n) with
    | none => exact hnone
    | some f =>
      obtain ⟨hf, hfits⟩ := mem_below_of_dataChild?_some hfirst
      exact congrArg some (honly' hf hfits)

/-- A leaf id below a data node leads to what has its name there. -/
theorem locateBelow_of_childOf? {e : DataChild} (hc : reg.childOf? (some q) li.name none = some e)
    (hs : LeadsTo step li) : reg.locateBelow q step = .ok e.node := by
  rcases hs with rfl | ⟨v, rfl⟩
  all_goals exact locateBelow_eq_ok_iff.2 ⟨_, _, e, rfl, hc, rfl, by simp [Step.className?]⟩

/-! ### At the end of an object id -/

/-- Nothing is found below a leaf. -/
theorem Reachable.isLeafLike_of_mem_below {e : DataChild} (h : reg.Reachable)
    (hq : q.model ∈ reg.models) (he : e ∈ reg.below (some q)) : q.kind.isLeafLike = false := by
  rw [below] at he
  split at he
  · next hany => simp [hany, Kind.isLeafLike]
  · have hchildren := Ref.canHoldChildren_of_mem_offers (h.linked hq) he
    cases hqk : q.kind <;> simp [Kind.isLeafLike, Kind.canHoldChildren, hqk] at hchildren ⊢

/-- Steps that lead to a node that is no leaf do not pass a leaf. -/
theorem isLeaf_of_followSteps {id : ObjectId} {steps : List Step} {rid rid' : ResourceId}
    {current : Option Ref} (hq : q.kind.isLeafLike = false)
    (hf : reg.followSteps id steps rid current = .ok (rid', some q)) :
    ∀ step ∈ steps, step.isLeaf = false := by
  induction steps generalizing rid current with
  | nil => simp
  | cons step steps ih =>
    obtain ⟨hend, node, above, key, -, hkey, hf⟩ := followSteps_cons_iff.1 hf
    rw [List.forall_mem_cons]
    refine ⟨?_, ih hf⟩
    by_contra hleaf
    have hleaf : step.isLeaf = true := by simpa using hleaf
    obtain rfl := hend hleaf
    cases hf
    rw [(stepKey_eq_ok hkey).2 hleaf] at hq
    cases hq

/-- Steps without a leaf are followed by others, whatever the whole id is. -/
theorem followSteps_append {id id' : ObjectId} {steps rest : List Step} {rid rid' : ResourceId}
    {current mid : Option Ref} {out : ResourceId × Option Ref}
    (hleaf : ∀ step ∈ steps, step.isLeaf = false)
    (hf : reg.followSteps id steps rid current = .ok (rid', mid))
    (hrest : reg.followSteps id' rest rid' mid = .ok out) :
    reg.followSteps id' (steps ++ rest) rid current = .ok out := by
  induction steps generalizing rid current with
  | nil =>
    cases hf
    exact hrest
  | cons step steps ih =>
    obtain ⟨-, node, above, key, hnode, hkey, hf⟩ := followSteps_cons_iff.1 hf
    rw [List.forall_mem_cons] at hleaf
    refine followSteps_cons_iff.2 ⟨by simp [hleaf.1], node, above, key, hnode, hkey, ?_⟩
    exact ih hleaf.2 hf

/-- A step to a leaf addresses it, an entry of a leaf-list only where there are some. -/
theorem exists_stepKey (hk : s.kind.isLeafLike = true)
    (hs : step = .leaf li ∨ s.kind = .leafList ∧ ∃ v, step = .leafEntry li v) :
    ∃ key, stepKey s step = .ok key ∧ key.id = s.id ∧ LeadsTo step li := by
  rcases hs with rfl | ⟨hlist, v, rfl⟩
  · exact ⟨_, stepKey_eq_ok_iff.2 (.leaf hk), rfl, .inl rfl⟩
  · exact ⟨_, stepKey_eq_ok_iff.2 (.leafEntry hlist), rfl, .inr ⟨v, rfl⟩⟩

/-- Leaf ids are faithful where the node of the class around a leaf finds the leaf by its name: the
class and the name lead back to the leaf, at the start of an object id and wherever else a class is
asked. Behind the data node above, the leaf id leads to the leaf if the leaf has the namespace of that
node or is the only one there of its name, provided that the leaf is found there at all, as it always is
where augments fit (`Sole.exists_mem_below`). -/
theorem Reachable.leafId_faithful (h : reg.Reachable) (hs : s.model ∈ reg.models)
    (hk : s.kind.isLeafLike = true) (hli : leafId s = .ok li)
    (howner : reg.nodeOfClass? li.owner = some p) (hp : p.Foremost s) :
    reg.leafOf? li = some s ∧
      ∀ step, (step = .leaf li ∨ s.kind = .leafList ∧ ∃ v, step = .leafEntry li v) →
        reg.locateFirst step = .ok s ∧
        (s.dataParent? = none →
          ∃ key, key.id = s.id ∧ reg.toResourceId ⟨[step]⟩ = .ok (ResourceId.root.push key, some s)) ∧
        ∀ q, s.dataParent? = some q → (∃ e ∈ reg.below (some q), e.node = s) →
          ((reg.below (some q)).map fun e => e.node.id).Nodup →
          (s.ns = q.ns ∨ ∀ e ∈ reg.below (some q), e.node.name = s.name → e.node = s) →
          ∀ id rid, reg.toResourceId id = .ok (rid, some q) →
            ∃ key, key.id = s.id ∧
              reg.toResourceId ⟨id.steps ++ [step]⟩ = .ok (rid.push key, some s) := by
  have hleaf := leafOf?_of_foremost hk hli howner hp
  refine ⟨hleaf, fun step hstep => ?_⟩
  obtain ⟨key, hkey, hid, hleads⟩ := exists_stepKey hk hstep
  have hfirst := locateFirst_of_leafOf? hleaf hleads
  refine ⟨hfirst, fun htop => ⟨key, hid, ?_⟩, ?_⟩
  · have hnone : s.dataAncestors = [] := List.head?_eq_none_iff.1 htop
    exact followSteps_cons_iff.2 ⟨fun _ => rfl, s, [], key,
      .inl ⟨rfl, hfirst, by rw [hnone]; rfl⟩, hkey, rfl⟩
  · rintro q hq ⟨e, he, rfl⟩ hids hsame id rid hrid
    have hqm : q.model ∈ reg.models := (Ref.of_mem_dataAncestors (List.mem_of_head? hq)).1 ▸ hs
    obtain ⟨n, hqn⟩ := h.exists_ns hqm
    have hchild := childOf?_of_name hqn he hids hsame
    have hbelow : reg.locateBelow q step = .ok e.node :=
      locateBelow_of_childOf? (by rwa [name_of_leafId hli]) hleads
    refine ⟨key, hid,
      followSteps_append (isLeaf_of_followSteps (h.isLeafLike_of_mem_below hqm he) hrid) hrid ?_⟩
    refine followSteps_cons_iff.2
      ⟨fun _ => rfl, e.node, [], key, .inr ⟨⟨q, rfl, hbelow⟩, rfl⟩, hkey, ?_⟩
    rw [List.append_nil]
    rfl

/-! ### A team

A league augments the players of a team with a number of its own. The number of the team hides it
behind a player, while its rank is the only one. -/

namespace Team

def model : Model where
  id := "team"
  nodes := #[
    { id := ⟨"team", some "urn:team"⟩, kind := .module, children := [1] },
    { id := ⟨"player", some "urn:team"⟩, kind := .container, parent := some 0, children := [2],
      augments := [4], className := some "Player" },
    { id := ⟨"number", some "urn:team"⟩, kind := .leaf, parent := some 1 },
    { id := ⟨"league", some "urn:league"⟩, kind := .module, children := [4] },
    { id := ⟨"/player", some "urn:league"⟩, kind := .augment, parent := some 3, children := [5, 6],
      target := some 1, className := some "LeaguePlayer" },
    { id := ⟨"number", some "urn:league"⟩, kind := .leaf, parent := some 4 },
    { id := ⟨"rank", some "urn:league"⟩, kind := .leaf, parent := some 4 }]
  modules := [0, 3]

theorem built : model.Built :=
  ⟨"team", [.addModule "team" "urn:team" none, .addChild 0 .container "player", .setClass 1 "Player",
    .addChild 1 .leaf "number", .addModule "league" "urn:league" none, .addAugment 3 1,
    .setClass 4 "LeaguePlayer", .addChild 4 .leaf "number", .addChild 4 .leaf "rank"],
    by decide +kernel⟩

def registry : Registry := run {} [.register model []]

theorem sole : registry.Sole model where
  reachable := ⟨true, [.register model []], fun command h => by
    obtain rfl := List.mem_singleton.1 h
    exact built, rfl⟩
  models := rfl
  nodup_names := by decide
  nodup_namespaces := by decide

def playerRef : Ref := ⟨model, 1, by decide⟩

def numberRef : Ref := ⟨model, 2, by decide⟩

def leaguePlayerRef : Ref := ⟨model, 4, by decide⟩

def leagueNumberRef : Ref := ⟨model, 5, by decide⟩

def rankRef : Ref := ⟨model, 6, by decide⟩

theorem nodeOfClass?_player : registry.nodeOfClass? "Player" = some playerRef :=
  sole.nodeOfClass?_eq_some_iff.2 ⟨rfl, rfl⟩

theorem nodeOfClass?_leaguePlayer : registry.nodeOfClass? "LeaguePlayer" = some leaguePlayerRef :=
  sole.nodeOfClass?_eq_some_iff.2 ⟨rfl, rfl⟩

theorem foremost_of_leaguePlayer (hs : s.parent? = some leaguePlayerRef) (hl : s.isLayer = false) :
    leaguePlayerRef.Foremost s :=
  Ref.foremost_of_parent? (Ref.model_of_parent? hs ▸ built.linked) (by decide) hs hl

theorem dataAncestors_player : playerRef.dataAncestors = [] :=
  by with_unfolding_all rfl

theorem toResourceId_player : registry.toResourceId ⟨[.child "Player"]⟩ =
    .ok (⟨[{ id := playerRef.id }]⟩, some playerRef) :=
  toResourceId_child nodeOfClass?_player rfl (by decide) dataAncestors_player

theorem dataParent?_of_leaguePlayer (hs : s.parent? = some leaguePlayerRef) :
    s.dataParent? = some playerRef := by
  have hlayer := Ref.augment_mem_layers (r := playerRef) (c := leaguePlayerRef)
    ((Ref.mem_augments_iff (r := playerRef) built.linked).2 rfl)
  rw [Ref.dataParent?, Ref.dataAncestors_of_parent? hs]
  change (Schema.Layer.augment leaguePlayerRef).node.dataAncestry.head? = _
  rw [Ref.dataAncestry_of_mem_layers built.linked hlayer,
    Ref.dataAncestry_of_data built.linked (by decide) (by decide)]
  rfl

theorem nodup_below_player :
    ((registry.below (some playerRef)).map fun e => e.node.id).Nodup := by
  decide +kernel

/-- What is found behind a player is declared there or in the league. -/
theorem childOf?_number : registry.childOf? (some playerRef) "number" none =
    some { node := numberRef } := by
  have hown : playerRef.findDataChild? "number" (some "urn:team") = some { node := numberRef } :=
    Ref.findDataChild?_of_own rfl
  have hfirst : registry.dataChild? (some playerRef) "number" (some "urn:team") =
      some { node := numberRef } := by
    rw [dataChild?, if_neg (by decide), hown]
  change (registry.dataChild? (some playerRef) "number" (some "urn:team") <|> _) = _
  rw [hfirst]
  rfl

end Team

/-- The rank of a player in the league is found under its leaf id. -/
theorem leafId_faithful_rank : ∃ li, leafId Team.rankRef = .ok li ∧
    Team.registry.leafOf? li = some Team.rankRef ∧ ∃ key, key.id = Team.rankRef.id ∧
      Team.registry.toResourceId ⟨[.child "Player", .leaf li]⟩ =
        .ok (⟨[{ id := Team.playerRef.id }, key]⟩, some Team.rankRef) := by
  have hp : Team.rankRef.parent? = some Team.leaguePlayerRef := rfl
  have hc : Team.leaguePlayerRef.className = some "LeaguePlayer" := rfl
  obtain ⟨hleaf, hstep⟩ := Team.sole.reachable.leafId_faithful (List.mem_singleton.2 rfl) (by decide)
    (leafId_of_parent hp hc) Team.nodeOfClass?_leaguePlayer (Team.foremost_of_leaguePlayer hp (by decide))
  have honly : ∀ e ∈ Team.registry.below (some Team.playerRef),
      e.node.name = Team.rankRef.name → e.node = Team.rankRef := by
    have hindex : ∀ e ∈ Team.registry.below (some Team.playerRef),
        e.node.name = "rank" → e.node.index.val = 6 := by decide +kernel
    exact fun e he hname => Ref.ext_iff'.2
      ⟨Team.sole.model_of_mem_below (by rintro r ⟨⟩; rfl) he, hindex e he hname⟩
  have hfound : ∃ e ∈ Team.registry.below (some Team.playerRef), e.node = Team.rankRef := by
    have hname : ∃ e ∈ Team.registry.below (some Team.playerRef), e.node.name = "rank" := by
      decide +kernel
    obtain ⟨e, he, hname⟩ := hname
    exact ⟨e, he, honly e he hname⟩
  obtain ⟨key, hkey, hrid⟩ := (hstep _ (.inl rfl)).2.2 _ (Team.dataParent?_of_leaguePlayer hp) hfound
    Team.nodup_below_player (.inr honly) _ _ Team.toResourceId_player
  exact ⟨_, leafId_of_parent hp hc, hleaf, key, hkey, hrid⟩

/-- The number of a player in the league is lost: its leaf id leads to the number in the team when it
stands behind a player, although it leads to the number in the league when it stands alone. -/
theorem leafId_lost_number : ∃ li, leafId Team.leagueNumberRef = .ok li ∧
    Team.registry.leafOf? li = some Team.leagueNumberRef ∧
    Team.leagueNumberRef.dataParent? = some Team.playerRef ∧
    Team.registry.toResourceId ⟨[.child "Player"]⟩ =
      .ok (⟨[{ id := Team.playerRef.id }]⟩, some Team.playerRef) ∧
    ∃ rid, Team.registry.toResourceId ⟨[.child "Player", .leaf li]⟩ =
        .ok (rid, some Team.numberRef) ∧ Team.numberRef ≠ Team.leagueNumberRef := by
  have hp : Team.leagueNumberRef.parent? = some Team.leaguePlayerRef := rfl
  have hc : Team.leaguePlayerRef.className = some "LeaguePlayer" := rfl
  refine ⟨_, leafId_of_parent hp hc,
    leafOf?_of_foremost (by decide) (leafId_of_parent hp hc) Team.nodeOfClass?_leaguePlayer
      (Team.foremost_of_leaguePlayer hp (by decide)), Team.dataParent?_of_leaguePlayer hp,
    Team.toResourceId_player, ⟨[{ id := Team.playerRef.id }, { id := Team.numberRef.id }]⟩, ?_, ?_⟩
  · have hplayer : ∀ step ∈ [Step.child "Player"], step.isLeaf = false := by simp [Step.isLeaf]
    refine followSteps_append hplayer Team.toResourceId_player ?_
    have hbelow : Team.registry.locateBelow Team.playerRef (.leaf ⟨"LeaguePlayer", "number"⟩) =
        .ok Team.numberRef :=
      locateBelow_of_childOf? (e := ⟨Team.numberRef, []⟩) Team.childOf?_number (.inl rfl)
    exact followSteps_cons_iff.2 ⟨fun _ => rfl, Team.numberRef, [], { id := Team.numberRef.id },
      .inr ⟨⟨_, rfl, hbelow⟩, rfl⟩, rfl, rfl⟩
  · intro h
    exact absurd (congrArg (fun r : Ref => r.index.val) h) (by decide)

end Registry

end YangBinding
