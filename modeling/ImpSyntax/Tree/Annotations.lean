import Std.Data.TreeMap
import ImpSyntax.Tree.Walk

/-!
# Annotations

A table beside a tree that holds values for its nodes, each under a key. A node is known by its
place: where it comes when the nodes are listed with parents first. A value can be set only once.

The table has a slot for every place where something was set. To set a value the slot is made first,
where there is none, and then searched for the key, so that a refusal leaves a table behind too.

Main results:

* `Annotations.set_eq_error_iff` — a value is refused exactly when there is one already.
* `Annotations.get?_of_set` — after a value is set it is found, and no other value has changed.
-/

namespace ImpSyntax

/-! ## Places -/

/-- A node of a tree together with its place. -/
structure Site where
  place : Nat
  node : Node
deriving DecidableEq, Repr

/-- The sites of the subtree. -/
def Node.sites (n : Node) : List Site := n.preorder.zipIdx.map fun (node, place) => ⟨place, node⟩

/-! ## The table -/

/-- The values under their keys, for every place where something was set. -/
structure Annotations (α : Type) where
  entries : Std.TreeMap Nat (Std.TreeMap String α)

/-- A value that was to be set where there is one. -/
structure AlreadySet where
  key : String
  nodeClass : NodeClass
  pos : Position
deriving DecidableEq, Repr

/-- The wording of the refusal. -/
def AlreadySet.message (e : AlreadySet) : String :=
  s!"attribute '{e.key}' is already set on {e.nodeClass.name} at {e.pos}"

/-- A refusal, and the table that it leaves behind. -/
structure Refusal (α : Type) extends AlreadySet where
  table : Annotations α

namespace Annotations

variable {α : Type}

/-- A table without values. -/
def empty : Annotations α := ⟨∅⟩

/-- The values at the site by their keys, if any was ever set there. -/
def annotations? (t : Annotations α) (site : Site) : Option (Std.TreeMap String α) :=
  t.entries[site.place]?

/-- The value under the key, if it was set. -/
def get? (t : Annotations α) (site : Site) (key : String) : Option α :=
  (t.annotations? site).bind fun values => values[key]?

/-- Whether the key was set. -/
def contains (t : Annotations α) (site : Site) (key : String) : Bool := (t.get? site key).isSome

/-- How many nodes have a value. -/
def size (t : Annotations α) : Nat := t.entries.size

/-- Whether no node has a value. -/
def isEmpty (t : Annotations α) : Bool := t.entries.isEmpty

/-- The table with a slot for the site, an empty one if there was none. -/
def slotted (t : Annotations α) (site : Site) : Annotations α :=
  ⟨t.entries.insertIfNew site.place ∅⟩

/-- The table with one value more. -/
def set (t : Annotations α) (site : Site) (key : String) (value : α) :
    Except (Refusal α) (Annotations α) :=
  let t := t.slotted site
  let slot := (t.annotations? site).getD ∅
  if slot.contains key then
    .error ⟨⟨key, site.node.nodeClass, site.node.pos⟩, t⟩
  else .ok ⟨t.entries.insert site.place (slot.insert key value)⟩

/-- A new slot is empty, and one that was there stays as it is. -/
theorem annotations?_slotted (t : Annotations α) (site other : Site) :
    (t.slotted site).annotations? other =
      if other.place = site.place then some ((t.annotations? site).getD ∅)
      else t.annotations? other := by
  rw [annotations?, slotted, Std.TreeMap.getElem?_insertIfNew]
  by_cases same : other.place = site.place
  · simp only [same, annotations?, Std.TreeMap.mem_iff_isSome_getElem?]
    cases t.entries[site.place]? <;> simp
  · simp [same, Ne.symm same, annotations?]

theorem contains_slot (t : Annotations α) (site : Site) (key : String) :
    ((t.annotations? site).getD ∅).contains key = t.contains site key := by
  rw [Std.TreeMap.contains_eq_isSome_getElem?, contains, get?]
  cases t.annotations? site <;> simp

theorem set_eq (t : Annotations α) (site : Site) (key : String) (value : α) :
    t.set site key value =
      if t.contains site key then
        .error ⟨⟨key, site.node.nodeClass, site.node.pos⟩, t.slotted site⟩
      else
        .ok ⟨(t.slotted site).entries.insert site.place
          (((t.annotations? site).getD ∅).insert key value)⟩ := by
  simp only [set, annotations?_slotted, if_true, Option.getD_some, contains_slot]

theorem set_eq_error_iff {t : Annotations α} {site : Site} {key : String} {value : α}
    {e : Refusal α} :
    t.set site key value = .error e ↔
      t.contains site key = true ∧
        e = ⟨⟨key, site.node.nodeClass, site.node.pos⟩, t.slotted site⟩ := by
  rw [set_eq]
  split
  · next h => simp [h, eq_comm]
  · next h => simp [h]

theorem annotations?_of_set {t t' : Annotations α} {site : Site} {key : String} {value : α}
    (h : t.set site key value = .ok t') (other : Site) :
    t'.annotations? other =
      if other.place = site.place then some (((t.annotations? site).getD ∅).insert key value)
      else t.annotations? other := by
  rw [set_eq] at h
  split at h
  · cases h
  · simp only [Except.ok.injEq] at h
    subst h
    by_cases same : other.place = site.place
    · simp [annotations?, same]
    · have kept := annotations?_slotted t site other
      simp only [annotations?, same, if_false] at kept
      simp [annotations?, Std.TreeMap.getElem?_insert, same, Ne.symm same, kept]

theorem get?_of_set {t t' : Annotations α} {site : Site} {key : String} {value : α}
    (h : t.set site key value = .ok t') (other : Site) (otherKey : String) :
    t'.get? other otherKey =
      if other.place = site.place ∧ otherKey = key then some value else t.get? other otherKey := by
  rw [get?, annotations?_of_set h]
  by_cases place : other.place = site.place
  · by_cases same : otherKey = key
    · simp [place, same]
    · have there : t.annotations? other = t.annotations? site := by
        rw [annotations?, annotations?, place]
      cases found : t.annotations? site <;>
        simp [get?, Std.TreeMap.getElem?_insert, place, same, there, found, Ne.symm same]
  · simp [get?, place]

end Annotations

end ImpSyntax
