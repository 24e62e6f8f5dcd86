import Std.Data.TreeMap
import YangBinding.Schema.Model

/-!
# Index of module revisions

Modules are found by a name and a revision; the name may be that of the module or its namespace. A
revision may be provided by several models, of which the latest hides the others as long as it is
there. When a model goes, what it provided goes with it, and nothing empty stays behind.

## Main definitions

* `Index`: the providers of every name and revision
* `Index.add`, `Index.drop`: a module comes, a model goes
* `Index.ofRevision?`, `Index.select?`: the module of a revision, or of no particular one
-/

namespace YangBinding

open Calendar (Date)
open Schema (Ref)
open Std (TreeMap)

/-- The providers of each revision, the latest first. Modules without a revision come before all
others. -/
abbrev Revisions := TreeMap (Option Date) (List Ref)

/-- The providers by name and revision. -/
abbrev Index := TreeMap String Revisions

namespace Index

/-- Puts one more item in front of those that are there. -/
def pushed {α : Type} (a : α) (items : Option (List α)) : Option (List α) :=
  some (a :: items.getD [])

/-- A module hides those that provide the same revision. -/
def add (index : Index) (name : String) (module : Ref) : Index :=
  index.alter name fun revisions =>
    some ((revisions.getD ∅).alter module.revision (pushed module))

/-- The items that pass a test, if there are any. -/
def kept {α : Type} (test : α → Bool) (items : List α) : Option (List α) :=
  if items.any test then some (items.filter test) else none

/-- The revisions that are left without a model. -/
def dropRevisions (modelId : String) (revisions : Revisions) : Option Revisions :=
  let left : Revisions :=
    revisions.filterMap fun _ providers => kept (fun r => r.model.id != modelId) providers
  if left.isEmpty then none else some left

/-- What is left without a model. -/
def drop (index : Index) (modelId : String) : Index :=
  index.filterMap fun _ revisions => dropRevisions modelId revisions

/-- The latest provider of a revision. -/
def latest? (revisions : Revisions) (revision : Option Date) : Option Ref :=
  revisions[revision]?.bind List.head?

/-- The module of a name and a revision. -/
def ofRevision? (index : Index) (name : String) (revision : Option Date) : Option Ref :=
  index[name]?.bind fun revisions => latest? revisions revision

/-- The one without a revision if there is one, else that of the greatest revision. -/
def selectRevision? (revisions : Revisions) : Option Ref :=
  (revisions[(none : Option Date)]? <|>
    revisions.maxKey?.bind fun revision => revisions[revision]?).bind List.head?

/-- The module of a name when no revision is asked for. -/
def select? (index : Index) (name : String) : Option Ref :=
  index[name]?.bind selectRevision?

/-- The selected module of every name, in the order of the names. -/
def selected (index : Index) : List Ref :=
  index.toList.filterMap fun entry => selectRevision? entry.2

/-- The module of every name and revision, in their order. -/
def all (index : Index) : List Ref :=
  index.toList.flatMap fun entry => entry.2.toList.filterMap fun revision => revision.2.head?

end Index

end YangBinding
