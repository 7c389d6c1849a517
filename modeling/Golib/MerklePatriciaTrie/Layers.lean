import Golib.MerklePatriciaTrie.Snapshot
import Golib.MerklePatriciaTrie.Traversal

/-! Lookups in the layers of pending nodes: a new layer, and layers that are flattened
into one map. -/
namespace Golib.MerklePatriciaTrie

open Program

theorem lookup_merge (target source : NodeMap) (r : Root) :
    (mergePersistedReferences target source).lookup r = (source.lookup r).or (target.lookup r) :=
  lookup_union source target r

theorem lookup_deleteAll (ns : NodeMap) (removed : List Root) (r : Root) :
    (deleteAll ns removed).lookup r = if r ∈ removed then none else ns.lookup r := by
  induction removed generalizing ns with
  | nil => simp [deleteAll]
  | cons first removed ih =>
    have step : deleteAll ns (first :: removed) = deleteAll (ns.erase first) removed := rfl
    rw [step, ih]
    by_cases eq : r = first
    · rw [eq, AList.lookup_erase]
      simp
    · simp [eq]

theorem lookupPending_eq (added : NodeMap) (removed : List Root) (parent : List PendingLayer)
    (r : Root) :
    lookupPending added removed parent r =
      (added.lookup r).or (if r ∈ removed then none else lookupParents r parent) := by
  unfold lookupPending
  cases added.lookup r <;> rfl

theorem lookupParents_cons (layer : PendingLayer) (parents : List PendingLayer) (r : Root) :
    lookupParents r (layer :: parents) = lookupPending layer.added layer.removed parents r := rfl

theorem lookup_materializePendingLayer (layers : List PendingLayer) (r : Root) :
    (materializePendingLayer layers).lookup r = lookupParents r layers := by
  induction layers with
  | nil => rfl
  | cons layer parents ih =>
    rw [materializePendingLayer, lookup_merge, lookup_deleteAll, ih, lookupParents_cons,
      lookupPending_eq]

theorem Snapshot.lookup_materializePending (snap : Snapshot) (r : Root) :
    snap.materializePending.lookup r = snap.lookupPending r := by
  rw [Snapshot.materializePending, lookup_merge, lookup_deleteAll, lookup_materializePendingLayer,
    Snapshot.lookupPending, lookupPending_eq]

theorem Snapshot.lookup_pendingLayer (snap : Snapshot) (r : Root) :
    lookupParents r snap.pendingLayer = snap.lookupPending r := by
  unfold Snapshot.pendingLayer
  split
  · rename_i none
    have pending : snap.pending.lookup r = Option.none := by
      rw [AList.lookup_eq_none, AList.mem_keys, AList.keys, List.eq_nil_of_length_eq_zero none.1]
      simp
    rw [Snapshot.lookupPending, lookupPending_eq, pending, List.eq_nil_of_length_eq_zero none.2]
    rfl
  · rfl

theorem lookup_stackLayers (added : NodeMap) (parent : List PendingLayer) (removed : List Root)
    (r : Root) :
    lookupPending (stackLayers added parent removed).1 (stackLayers added parent removed).2.2
        (stackLayers added parent removed).2.1 r =
      lookupPending added removed parent r := by
  unfold stackLayers
  split
  · rw [lookupPending_eq, lookupPending_eq, lookup_merge, lookup_deleteAll,
      lookup_materializePendingLayer]
    simp [lookupParents]
  · rfl

end Golib.MerklePatriciaTrie
