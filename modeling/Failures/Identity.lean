import Std.Data.TreeMap.Lemmas
import Std.Data.TreeSet.Lemmas

/-!
Identities of nodes.

An error is told apart from every other one by identity, never by what it says:
two leaves that report the same fault are two leaves. A store hands the
identities out in increasing order and never reuses one, so an identity is a
number, and sets and tables of identities are ordered by it.
-/

namespace Failures

abbrev NodeId := Nat

abbrev IdSet := Std.TreeSet NodeId

abbrev IdMap (α : Type) := Std.TreeMap NodeId α

theorem IdSet.contains_insert_iff {ids : IdSet} {id other : NodeId} :
    (ids.insert id).contains other = true ↔ id = other ∨ ids.contains other = true := by
  simp [Std.TreeSet.contains_insert]

theorem IdSet.contains_insert_self (ids : IdSet) (id : NodeId) :
    (ids.insert id).contains id = true :=
  contains_insert_iff.mpr (.inl rfl)

end Failures
