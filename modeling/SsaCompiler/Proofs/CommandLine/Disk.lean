import SsaCompiler.CommandLine.Files
import SsaCompiler.Proofs.Running

/-!
# What a disk changes

A file system is seen through the places that its paths lead to and the files at these places.  A disk is safe
if reading changes nothing of this, if a write that fails leaves every file as it is, and if any other changes the
file at its path and no other.  The tree of files is such a disk:

    fs.write path bytes = .ok fs' → ∃ q, fs.place? path = some q ∧ fs' = fs.put q bytes          (write_eq_ok)
    fs.place? path = some q → (fs.put place bytes).place? path = some q                            (place?_put)
-/

namespace SsaCompiler.CommandLine

/-- How the states of a file system are seen. -/
structure View (σ Place : Type) where
  /-- The place that a path leads to. -/
  place? : σ → String → Option Place
  /-- The contents of the file at a place. -/
  file? : σ → Place → Option (List UInt8)

/-- A disk that changes no file but the one that it is asked to write, and none where writing fails. -/
structure Disk.Safe {σ Place : Type} (disk : Disk (StateM σ)) (view : View σ Place) : Prop where
  read : ∀ path s, view.place? (disk.read path s).2 = view.place? s ∧ view.file? (disk.read path s).2 = view.file? s
  write_error : ∀ path bytes s e s', disk.write path bytes s = (.error e, s') → view.file? s' = view.file? s
  write_ok : ∀ path bytes s s', disk.write path bytes s = (.ok (), s') →
    ∃ q, view.place? s path = some q ∧ view.place? s' path = some q ∧ view.file? s' q = some bytes ∧
      ∀ q', q' ≠ q → view.file? s' q' = view.file? s q'

namespace Files

variable {fs fs' : Files} {path name : String} {directory place next q : List String} {bytes : List UInt8}

/-- The place that a path leads to. -/
def place? (fs : Files) (path : String) : Option (List String) :=
  (fs.reach path >>= fun (directory, last) => child directory last).toOption

theorem place?_eq_some :
    fs.place? path = some q ↔
      ∃ directory last, fs.reach path = .ok (directory, last) ∧ child directory last = .ok q := by
  have hok (x : Except SystemError (List String)) : x.toOption = some q ↔ x = .ok q := by
    cases x <;> simp [Except.toOption]
  rw [place?, hok, bind_eq_ok_iff, Prod.exists]

/-! ## Directories stay -/

/-- What is on the way to a file stays so when a file is put somewhere. -/
theorem isDirectory_put (h : fs.isDirectory directory = true) : (fs.put place bytes).isDirectory directory = true := by
  unfold isDirectory at *
  rw [Bool.or_eq_true] at *
  refine h.imp_right fun hany => ?_
  obtain ⟨⟨p, b⟩, hmem, hp⟩ := List.any_eq_true.mp hany
  refine List.any_eq_true.mpr ?_
  by_cases hplace : p = place
  · subst hplace
    exact ⟨(p, bytes), List.mem_cons_self, hp⟩
  · exact ⟨(p, b), List.mem_cons_of_mem _ (List.mem_filter.mpr ⟨hmem, decide_eq_true hplace⟩), hp⟩

theorem enter_put (h : fs.enter directory name = .ok next) : (fs.put place bytes).enter directory name = .ok next := by
  unfold enter at *
  split
  · next hsame => rwa [if_pos hsame] at h
  · next hsame =>
    rw [if_neg hsame] at h
    split
    · next hup => rwa [if_pos hup] at h
    · next hup =>
      rw [if_neg hup, bind_eq_ok_iff] at h
      obtain ⟨q, hchild, h⟩ := h
      refine bind_eq_ok_iff.mpr ⟨q, hchild, ?_⟩
      split at h
      · next hq => rwa [if_pos (isDirectory_put hq)]
      · cases h

theorem foldlM_enter_put {names : List String} (h : names.foldlM fs.enter directory = .ok next) :
    names.foldlM (fs.put place bytes).enter directory = .ok next := by
  induction names generalizing directory with
  | nil => exact h
  | cons name names ih =>
    rw [List.foldlM_cons, bind_eq_ok_iff] at *
    obtain ⟨first, hfirst, h⟩ := h
    exact ⟨first, enter_put hfirst, ih h⟩

theorem reach_put {last : String} (h : fs.reach path = .ok (directory, last)) :
    (fs.put place bytes).reach path = .ok (directory, last) := by
  unfold reach at *
  split
  · next hlength => rwa [if_pos hlength] at h
  · next hlength =>
    rw [if_neg hlength] at h
    split at h
    · exact h
    · obtain ⟨walked, hwalk, h⟩ := bind_eq_ok_iff.mp h
      exact bind_eq_ok_iff.mpr ⟨walked, foldlM_enter_put hwalk, h⟩

/-- A path that leads somewhere goes on leading there. -/
theorem place?_put (h : fs.place? path = some q) : (fs.put place bytes).place? path = some q := by
  obtain ⟨directory, last, hreach, hchild⟩ := place?_eq_some.mp h
  exact place?_eq_some.mpr ⟨directory, last, reach_put hreach, hchild⟩

/-! ## Writing -/

/-- A write that succeeds puts the file at the place of its path. -/
theorem write_eq_ok (h : fs.write path bytes = .ok fs') : ∃ q, fs.place? path = some q ∧ fs' = fs.put q bytes := by
  obtain ⟨⟨directory, last⟩, hreach, h⟩ := bind_eq_ok_iff.mp h
  dsimp only at h
  split at h
  · cases h
  · obtain ⟨q, hchild, h⟩ := bind_eq_ok_iff.mp h
    split at h
    · cases h
    · cases h
      exact ⟨q, place?_eq_some.mpr ⟨directory, last, hreach, hchild⟩, rfl⟩

/-- How a tree of files is seen. -/
def view : View Files (List String) :=
  { place?, file? }

theorem disk_write (fs : Files) (path : String) (bytes : List UInt8) :
    disk.write path bytes fs =
      match fs.write path bytes with
      | .ok fs' => (.ok (), fs')
      | .error e => (.error e, fs) := by
  show (match fs.write path bytes with
    | .ok fs' => (do set fs'; return .ok () : StateM Files (Except SystemError Unit))
    | .error e => (return .error e : StateM Files (Except SystemError Unit))) fs = _
  cases fs.write path bytes <;> rfl

theorem safe_disk : disk.Safe view where
  read _ _ := ⟨rfl, rfl⟩
  write_error path bytes fs e fs' h := by
    rw [disk_write] at h
    split at h
    · cases h
    · cases h
      rfl
  write_ok path bytes fs fs' h := by
    rw [disk_write] at h
    split at h
    · next hwrite =>
      cases h
      obtain ⟨q, hq, rfl⟩ := write_eq_ok hwrite
      exact ⟨q, hq, place?_put hq, file?_put_self _ _ _, fun q' hne => file?_put_of_ne hne⟩
    · cases h

end Files

end SsaCompiler.CommandLine
