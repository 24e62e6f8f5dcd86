import YangBinding.Proofs.Binding.Standing

/-!
# Assembled data

A data tree that has been put together by adding nodes and leaving them stands for what it was made
of: each data node is what a frame became when it was left, and the frame was entered where its schema
node is offered. Steps that are refused do not change that, whatever they leave behind.

## Main definitions

* `Tree.Node.Grown` — a data node, and everything below it, has been a frame
* `Tree.Assembly.Leaves` — a frame is left in a sequence of steps
* `Tree.Assembly.Growing` — everything in an assembly, complete or not, has grown in its place
* `Registry.Offers` — a schema node is offered at a place
* `Registry.assemble` — the data nodes that steps make at an address

## Main results

* `Registry.growing_step`, `Registry.growing_run` — a step, and a sequence of steps, keep an assembly
  growing
* `Registry.Reachable.grown_of_assemble` — what has been assembled has grown where it is
* `Registry.Sole.stands_of_assemble` — with one model, it stands for what is offered there
-/

namespace YangBinding

open Schema (DataChild Model Ref)
open YangBinding.Tree (Assembly Frame Node ResourceId)

namespace Tree

variable {P : Option Ref → Frame → Prop} {R : Option Ref → Ref → Prop} {L : Frame → Prop}
  {parent : Option Ref} {frame : Frame} {a a' : Assembly} {n : Node} {r : Ref}
  {v : Option LeafValue}

/-- A data node at a place has been a frame that is in a relation to the place, and so has everything
below it. -/
inductive Node.Grown (P : Option Ref → Frame → Prop) : Option Ref → Node → Prop
  | mk {parent : Option Ref} {frame : Frame} {n : Node} (here : P parent frame)
      (made : frame.node = .ok n) (below : ∀ c ∈ frame.children, Grown P (some frame.schema) c) :
      Grown P parent n

theorem Node.Grown.stands (h : n.Grown P parent) (hP : ∀ p f, P p f → R p f.schema) :
    n.Stands R parent := by
  induction h with
  | mk here made _ ih => exact .mk (hP _ _ here) made ih

/-- A frame is at its place, it can be left, and its children have distinct keys. -/
structure Frame.Settled (R : Option Ref → Ref → Prop) (L : Frame → Prop) (parent : Option Ref)
    (frame : Frame) : Prop where
  here : R parent frame.schema
  left : L frame
  nodup : (frame.children.map Node.key).Nodup

/-- The open nodes, innermost first, each below the next, and what has grown below them. -/
inductive FramesGrow (R : Option Ref → Ref → Prop) (L : Frame → Prop) (base : Option Ref) :
    List Frame → Prop
  | nil : FramesGrow R L base []
  | cons {frame : Frame} {rest : List Frame}
      (here : R ((rest.head?.map Frame.schema) <|> base) frame.schema)
      (nodup : (frame.children.map Node.key).Nodup)
      (children : ∀ c ∈ frame.children, c.Grown (Frame.Settled R L) (some frame.schema))
      (outer : FramesGrow R L base rest) : FramesGrow R L base (frame :: rest)

/-- Everything in an assembly, complete or not, is at a place where it may be, and what is complete
has been a frame. -/
structure Assembly.Growing (R : Option Ref → Ref → Prop) (L : Frame → Prop) (a : Assembly) :
    Prop where
  stack : FramesGrow R L a.base a.stack
  forest : ∀ n ∈ a.forest, n.Grown (Frame.Settled R L) a.base

namespace Assembly

theorem growing_start (base : Option Ref) : Growing R L { base } where
  stack := .nil
  forest := by simp

theorem Growing.enter (h : a.Growing R L) (hr : R a.current r) (he : a.enter r v = .ok a') :
    a'.Growing R L ∧ a'.base = a.base := by
  obtain ⟨value, -, rfl⟩ := eq_of_enter he
  exact ⟨⟨.cons hr (by simp) (by simp) h.stack, h.forest⟩, rfl⟩

/-- A node that is given up leaves the others as they are. -/
theorem Growing.pop (h : a.Growing R L) : a.pop.Growing R L := by
  obtain ⟨base, stack, forest⟩ := a
  obtain ⟨hstack, hforest⟩ := h
  refine ⟨?_, hforest⟩
  cases hstack with
  | nil => exact .nil
  | cons _ _ _ outer => exact outer

/-- A complete node that has grown at the current position may be put there. -/
theorem Growing.place (h : a.Growing R L) (hn : n.Grown (Frame.Settled R L) a.current) :
    (a.place n).Growing R L := by
  obtain ⟨base, stack, forest⟩ := a
  obtain ⟨hstack, hforest⟩ := h
  cases hstack with
  | nil =>
    refine ⟨.nil, fun c hc => ?_⟩
    rcases List.mem_append.1 hc with hc | hc
    · exact hforest c hc
    · obtain rfl := List.mem_singleton.1 hc
      exact hn
  | cons here nodup children outer =>
    refine ⟨.cons here (Children.nodup_insert n nodup) (fun c hc => ?_) outer, hforest⟩
    rw [Children.insert_eq] at hc
    rcases List.mem_upsert hc with rfl | hc
    · exact hn
    · exact children c hc

/-- A node that is left has become a data node. -/
theorem Growing.exit (h : a.Growing R L)
    (hl : ∀ frame rest, a.stack = frame :: rest → L frame) (he : a.exit = .ok a') :
    a'.Growing R L ∧ a'.base = a.base := by
  obtain ⟨base, stack, forest⟩ := a
  obtain ⟨hstack, hforest⟩ := h
  cases hstack with
  | nil => cases he
  | @cons frame rest here nodup children outer =>
    obtain ⟨n, hn, he⟩ := Except.bind_eq_ok_iff.1 he
    cases he
    have hrest : Growing R L { base, stack := rest, forest } := ⟨outer, hforest⟩
    refine ⟨hrest.place ⟨⟨here, hl frame rest rfl, nodup⟩, hn, children⟩, ?_⟩
    unfold Assembly.place
    split <;> rfl

/-- A frame is left at some step of a sequence, which need not succeed: it is the innermost one
then. -/
def Leaves (a : Assembly) (reg : Registry) (commands : List Command) (frame : Frame) : Prop :=
  ∃ before after outer, commands = before ++ .exit :: after ∧
    (a.run reg before).stack = frame :: outer

theorem run_concat (a : Assembly) (reg : Registry) (commands : List Command) (command : Command) :
    a.run reg (commands ++ [command]) = (a.run reg commands).step reg command := by
  rw [run, List.foldl_append]
  rfl

end Assembly

end Tree

namespace Registry

variable {reg : Registry} {m : Model} {a : Assembly} {nodes : List Node} {id : ResourceId}
  {L : Frame → Prop} {base : Option Ref}

/-- A schema node of the registry is offered at a place: its identifier leads to it from there. -/
def Offers (reg : Registry) (parent : Option Ref) (r : Ref) : Prop :=
  r.model ∈ reg.models ∧ ∃ e, reg.childOf? parent r.name r.ns = some e ∧ e.node = r

/-- The data nodes that a sequence of steps makes below the node at a resource id. -/
def assemble (reg : Registry) (id : ResourceId) (commands : List Assembly.Command) :
    Result (List Node) := do
  let a ← Assembly.at? reg id
  (a.run reg commands).finish

/-- An assembly starts where its address leads to, which is no leaf. -/
theorem base_of_at? (hat : Assembly.at? reg id = .ok a) :
    reg.resolve id = .ok a.base ∧ a = { base := a.base } ∧
      ∀ b, a.base = some b → b.kind.isLeafLike = false := by
  obtain ⟨base, hbase, hat⟩ := Except.bind_eq_ok_iff.1 hat
  cases base with
  | none =>
    cases hat
    exact ⟨hbase, rfl, by rintro _ ⟨⟩⟩
  | some b =>
    simp only at hat
    split at hat
    · cases hat
    · next hleaf =>
      cases hat
      refine ⟨hbase, rfl, ?_⟩
      rintro _ ⟨⟩
      simpa using hleaf

/-! ### Steps of the construction -/

/-- A step of the construction, whether it succeeds or not, keeps an assembly growing, provided that
what is found at the current position may be there, and that a frame may be left if that is the step. -/
theorem growing_step {R : Option Ref → Ref → Prop} (ha : a.Growing R L)
    (hadd : ∀ name ns e, reg.childOf? a.current name ns = some e → R a.current e.node)
    {command : Assembly.Command}
    (hl : command = .exit → ∀ frame rest, a.stack = frame :: rest → L frame) :
    (a.step reg command).Growing R L ∧ (a.step reg command).base = a.base := by
  unfold Assembly.step
  cases hp : a.perform reg command with
  | error e =>
    -- A refused addition changes nothing, and a node that cannot be completed is given up.
    cases command with
    | add name ns value => exact ⟨ha, rfl⟩
    | exit => exact ⟨ha.pop, rfl⟩
  | ok next =>
    cases command with
    | add name ns value =>
      obtain ⟨child, hchild, hp⟩ := Except.bind_eq_ok_iff.1 hp
      exact ha.enter (hadd name ns child (found_eq_ok_iff.1 hchild)) hp
    | exit => exact ha.exit (hl rfl) hp

/-- So does any sequence of steps; what grows are the frames that are left in it. -/
theorem growing_run {R : Option Ref → Ref → Prop} {commands before after : List Assembly.Command}
    (ha : a.Growing R (a.Leaves reg commands))
    (hadd : ∀ b : Assembly, b.Growing R (a.Leaves reg commands) → b.base = a.base →
      ∀ name ns e, reg.childOf? b.current name ns = some e → R b.current e.node)
    (hc : commands = before ++ after) :
    (a.run reg before).Growing R (a.Leaves reg commands) ∧ (a.run reg before).base = a.base := by
  -- From the end, so that a frame that is left has been the innermost one just before.
  induction before using List.reverseRecOn generalizing after with
  | nil => exact ⟨ha, rfl⟩
  | append_singleton before command ih =>
    have hc : commands = before ++ command :: after := by simpa using hc
    obtain ⟨hgrowing, hsame⟩ := ih hc
    rw [Assembly.run_concat, ← hsame]
    refine growing_step hgrowing (hadd _ hgrowing hsame) ?_
    rintro rfl frame outer hstack
    exact ⟨before, after, outer, hc, hstack⟩

/-- The nodes that come out of a growing assembly have grown. -/
theorem grown_of_finish {R : Option Ref → Ref → Prop} (ha : a.Growing R L)
    (hfinish : a.finish = .ok nodes) : ∀ n ∈ nodes, n.Grown (Frame.Settled R L) a.base := by
  unfold Assembly.finish at hfinish
  split at hfinish
  · cases hfinish
    exact ha.forest
  · cases hfinish

section Reachable

variable (h : reg.Reachable)
include h

/-- Resource ids lead to nodes of models that are in use. -/
theorem Reachable.model_mem_of_resolve (hb : reg.resolve id = .ok base) :
    ∀ b, base = some b → b.model ∈ reg.models := by
  refine List.foldlM_keeps (P := fun base : Option Ref => ∀ b, base = some b → b.model ∈ reg.models)
    ?_ (by rintro _ ⟨⟩) hb
  intro key _ parent base hparent hk
  obtain ⟨s, hs, rfl⟩ := Except.map_eq_ok_iff.1 hk
  obtain ⟨e, he, -, rfl⟩ := resolveKey_eq_ok_iff.1 hs
  rintro _ ⟨⟩
  exact h.model_mem_of_childOf? hparent he

omit h in
/-- What is above the next node of a growing assembly belongs to a model that is in use. -/
theorem model_mem_of_current (ha : a.Growing reg.Offers L)
    (hbase : ∀ b, a.base = some b → b.model ∈ reg.models) :
    ∀ r, a.current = some r → r.model ∈ reg.models := by
  obtain ⟨base, stack, forest⟩ := a
  obtain ⟨hstack, -⟩ := ha
  intro r hr
  cases hstack with
  | nil => exact hbase r hr
  | @cons frame rest here =>
    obtain rfl : frame.schema = r := Option.some.inj hr
    exact here.1

variable (hu : reg.Unambiguous)
include hu

/-- What has been assembled at an address, which is not that of a leaf, has grown there. -/
theorem Reachable.grown_of_assemble {commands : List Assembly.Command}
    (hnodes : reg.assemble id commands = .ok nodes) :
    ∃ a, Assembly.at? reg id = .ok a ∧ reg.resolve id = .ok a.base ∧
      (∀ b, a.base = some b → b.kind.isLeafLike = false) ∧
      ∀ n ∈ nodes, n.Grown (Frame.Settled reg.Offers (a.Leaves reg commands)) a.base := by
  obtain ⟨a, hat, hfinish⟩ := Except.bind_eq_ok_iff.1 hnodes
  obtain ⟨hresolve, hstart, hleaf⟩ := base_of_at? hat
  have hempty : a.Growing reg.Offers (a.Leaves reg commands) := by
    rw [hstart]
    exact Assembly.growing_start a.base
  -- What is found at the current position is offered there.
  have hadd (b : Assembly) (hb : b.Growing reg.Offers (a.Leaves reg commands)) (hbase : b.base = a.base)
      (name : String) (ns : Option String) (e : DataChild)
      (he : reg.childOf? b.current name ns = some e) : reg.Offers b.current e.node := by
    have hcurrent := model_mem_of_current hb (hbase ▸ h.model_mem_of_resolve hresolve)
    exact ⟨h.model_mem_of_childOf? hcurrent he, h.childOf?_again hu hcurrent he⟩
  obtain ⟨hgrowing, hbase⟩ := growing_run hempty hadd (List.append_nil commands).symm
  exact ⟨a, hat, hresolve, hleaf, hbase ▸ grown_of_finish hgrowing hfinish⟩

end Reachable

/-! ### With one model -/

/-- In a registry with one model it is enough that identifiers at the top are distinct. -/
theorem Sole.unambiguous (h : reg.Sole m)
    (hroot : ((reg.below none).map fun e => e.node.id).Nodup) : reg.Unambiguous := by
  have mem_below {module : Ref} {e : DataChild} (hm : reg.Consulted module)
      (he : e ∈ module.offers) : e ∈ reg.below none := by
    refine h.mem_below_root_iff.2 ⟨module, ?_, he⟩
    obtain hname | ⟨ns, hns⟩ := hm
    · exact h.mem_selected_iff.1 (Index.mem_selected_iff.2 hname)
    · exact (h.select?_namespace_eq_some_iff.1 hns).1
  intro a b ha hb e he f hf hid
  rw [List.eq_of_nodup_map hroot (mem_below ha he) (mem_below hb hf) hid]

/-- What has been assembled at an address, which is not that of a leaf, stands for what is offered
there. -/
theorem Sole.stands_of_assemble (h : reg.Sole m)
    (hroot : ((reg.below none).map fun e => e.node.id).Nodup) {commands : List Assembly.Command}
    (hnodes : reg.assemble id commands = .ok nodes) :
    ∃ base, reg.resolve id = .ok base ∧ (∀ b, base = some b → b.kind.isLeafLike = false) ∧
      ∀ n ∈ nodes, n.Stands reg.Offers base := by
  obtain ⟨a, -, hresolve, hleaf, hgrown⟩ :=
    h.reachable.grown_of_assemble (h.unambiguous hroot) hnodes
  exact ⟨a.base, hresolve, hleaf, fun n hn => (hgrown n hn).stands fun _ _ hf => hf.here⟩

end Registry

end YangBinding
