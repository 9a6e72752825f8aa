import DocIndex.Index.Cache
import DocIndex.Proofs.Disk
import DocIndex.Proofs.Index.Snapshot

/-!
# Cached indexes come back
-/

namespace DocIndex

namespace Index

variable {x : Index} {d d' : Disk} {path : Path} {now : Timestamp}

/-- What a save writes can be read again. -/
theorem read_of_save (h : x.save d path now = .ok d') :
    ∃ text, x.snapshot = .ok text ∧ d'.read path = .ok text.toUTF8.toList := by
  obtain ⟨text, ht, h⟩ := Fallible.bind_eq_ok.1 h
  exact ⟨text, ht, Disk.read_of_write (Fallible.mapError_eq_ok.1 h)⟩

/-- **An index that was saved is loaded as an index that holds the same**, or not at all if a line
number is too large. -/
theorem load_of_save (hc : x.Coherent) (hx : x.Storable) (h : x.save d path now = .ok d') :
    (x.Fits → ∃ y, load d' path = .ok (some y) ∧ x.Restores y) ∧
      (¬x.Fits → load d' path = .error (.snapshot .malformed)) := by
  obtain ⟨text, ht, hread⟩ := read_of_save h
  rw [load, hread]
  exact ofSnapshot_snapshot hc hx ht

theorem coherent_load {y : Index} (h : load d path = .ok (some y)) : y.Coherent := by
  unfold load at h
  split at h
  · exact coherent_ofSnapshot h
  · cases h
  · cases h

end Index

end DocIndex
