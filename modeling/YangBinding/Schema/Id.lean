/-!
# Schema identifiers

A schema node is known by its name together with the namespace that it belongs to. Data may leave
the namespace out, so an identifier is also a pattern: without a namespace it fits any.
-/

namespace YangBinding.Schema

/-- A name, and the namespace it belongs to if that is known. -/
structure Id where
  name : String
  ns : Option String := none
  deriving DecidableEq, Hashable, Repr, Inhabited

namespace Id

/-- The identifier that every path starts with. -/
def root : Id := ⟨"/", none⟩

/-- The identifier is the start of every path. -/
def isRoot (id : Id) : Bool :=
  id = root

/-- The identifier has the given name and, if one is asked for, the given namespace. -/
def fits (id : Id) (name : String) (ns : Option String) : Bool :=
  id.name = name && (ns.isNone || id.ns = ns)

/-- The namespace, if known, stands before the name and a colon. -/
def text (id : Id) : String :=
  match id.ns with
  | some ns => ns ++ ":" ++ id.name
  | none => id.name

/-- A name fits an identifier exactly if it is its name, and a namespace if it is its namespace. -/
theorem fits_iff {id : Id} {name : String} {ns : Option String} :
    id.fits name ns = true ↔ id.name = name ∧ ∀ n, ns = some n → id.ns = some n := by
  cases ns <;> simp [fits]

/-- Every identifier fits its own name and namespace. -/
theorem fits_self (id : Id) : id.fits id.name id.ns = true := by
  simp [fits]

end Id

end YangBinding.Schema
