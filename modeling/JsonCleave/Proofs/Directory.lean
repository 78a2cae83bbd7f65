import Mathlib
import JsonCleave.Storage
/-!
# Making directories

Directories are made only where no node exists. Existing nodes are kept, existing paths resolve as
before, and the new path resolves to a directory.
-/

namespace JsonCleave

namespace Storage

variable {s s' s'' : Storage} {place place' : Location} {p : Path}

structure IsKeptIn (s s' : Storage) : Prop where
  node? : ∀ place node, s.node? place = some node → s'.node? place = some node
  documents : s'.documents = s.documents

namespace IsKeptIn

theorem refl (s : Storage) : s.IsKeptIn s := ⟨fun _ _ h => h, rfl⟩

theorem trans (h : s.IsKeptIn s') (h' : s'.IsKeptIn s'') : s.IsKeptIn s'' :=
  ⟨fun place node hnode => h'.node? place node (h.node? place node hnode),
    h'.documents.trans h.documents⟩

theorem put (h : s.node? place = none) (node : Node) : s.IsKeptIn (s.put place node) := by
  refine ⟨fun place' node' hnode => ?_, rfl⟩
  have hne : place' ≠ place := by
    rintro rfl
    rw [h] at hnode
    cases hnode
  rwa [Storage.node?, Storage.put, List.lookup_cons, beq_false_of_ne hne]

theorem follow (h : s.IsKeptIn s') {parts : List String}
    (hfollow : s.follow place parts = .ok place') : s'.follow place parts = .ok place' := by
  induction parts generalizing place with
  | nil => exact hfollow
  | cons part rest ih =>
    rw [Storage.follow] at hfollow ⊢
    cases hnode : s.node? place with
    | none => simp [hnode] at hfollow
    | some node =>
      cases node with
      | file bytes => simp [hnode] at hfollow
      | directory =>
        simp only [hnode] at hfollow
        simp only [h.node? place _ hnode]
        split_ifs at hfollow ⊢ <;> exact ih hfollow

theorem locate (h : s.IsKeptIn s') (hlocate : s.locate p = .ok place) :
    s'.locate p = .ok place := by
  unfold Storage.locate at hlocate ⊢
  split_ifs at hlocate ⊢
  all_goals exact h.follow hlocate

theorem read (h : s.IsKeptIn s') {bytes : List UInt8} (hread : s.read p = .ok bytes) :
    s'.read p = .ok bytes := by
  unfold Storage.read at hread ⊢
  cases hlocate : s.locate p with
  | error problem =>
    rw [hlocate] at hread
    split at hread <;> cases hread
  | ok place =>
    simp only [hlocate] at hread
    simp only [h.locate hlocate]
    cases hnode : s.node? place with
    | none =>
      rw [hnode] at hread
      split at hread <;> cases hread
    | some node =>
      simp only [hnode] at hread
      simp only [h.node? place _ hnode]
      exact hread

end IsKeptIn

/-- `s'` has the directory `p` and its parents, and is otherwise `s`. -/
def Made (s : Storage) (p : Path) (s' : Storage) : Prop :=
  s.IsKeptIn s' ∧ ∃ place, s'.locate p = .ok place

theorem made_makeOne (h : s.makeOne p = .ok s') : s.Made p s' := by
  unfold makeOne at h
  cases hlocate : s.locate p with
  | error problem => simp [hlocate] at h
  | ok place =>
    simp only [hlocate] at h
    cases hnode : s.node? place with
    | some _ => simp [hnode] at h
    | none =>
      simp only [hnode] at h
      obtain rfl := Except.ok.inj h
      have hkept := IsKeptIn.put hnode .directory
      exact ⟨hkept, place, hkept.locate hlocate⟩

theorem made_tolerate {problem : PathProblem} (h : s.tolerate p problem = (.ok (), s')) :
    s.Made p s' := by
  unfold tolerate at h
  split at h
  · rename_i hdirectory
    cases h
    unfold isDirectory at hdirectory
    cases hlocate : s.locate p with
    | error problem => simp [hlocate] at hdirectory
    | ok place => exact ⟨.refl s, place, hlocate⟩
  · cases h

theorem made_makeLast (h : s.makeLast p = (.ok (), s')) : s.Made p s' := by
  unfold makeLast at h
  split at h
  · rename_i s'' hone
    cases h
    exact made_makeOne hone
  · cases h
  · exact made_tolerate h

theorem made_makeUpTo {depth : Nat} (h : s.makeUpTo p depth = (.ok (), s')) :
    s.Made { p with parts := p.parts.take depth } s' := by
  induction depth generalizing s' with
  | zero => exact made_makeLast h
  | succ depth ih =>
    rw [makeUpTo] at h
    split at h
    · rename_i hone
      cases h
      exact made_makeOne hone
    · split at h
      · cases h
      · rename_i s'' hupper
        obtain ⟨hkept, -⟩ := ih hupper
        obtain ⟨hlast, hplace⟩ := made_makeLast h
        exact ⟨hkept.trans hlast, hplace⟩
    · exact made_tolerate h

theorem made_makeDirectory (h : s.makeDirectory p = (.ok (), s')) : s.Made p s' := by
  unfold makeDirectory at h
  split at h
  · cases h
  · have hmade := made_makeUpTo h
    rwa [List.take_length] at hmade

end Storage

end JsonCleave
