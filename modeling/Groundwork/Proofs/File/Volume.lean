import Groundwork.File.Volume
import Mathlib.Data.List.Basic

/-!
# `Proofs.File.Volume` — what is written to a file is there to be read

A path is written to and read along the same way, and a new file at its end closes none of the
directories on it. So a volume keeps what is written to it, wherever it lets anything be written.

## Contents

* `FileStore.Keeps` — the file can be written, and it holds then what has been written.
* `follow_append`, `follow_insert` — ways put together, and what a new file changes about them.
* `keeps_of_placeToWrite` — **a volume keeps its files.**
* `Path.ofString_single` — a path of one name, taken apart.
-/

namespace Groundwork

/-- The file can be written, and it holds then what has been written. -/
def FileStore.Keeps {σ : Type} [FileStore σ] (store : σ) (file : String) : Prop :=
  ∀ bytes : List UInt8, ∃ after : σ, FileStore.write store file bytes = (.ok (), after) ∧
    FileStore.read after file = .ok bytes

namespace Volume

variable {volume : Volume} {place found : Place}

/-! ## Ways -/

theorem follow_cons (volume : Volume) (place : Place) (name : String) (names : List String) :
    volume.follow place (name :: names) =
      volume.follow place [name] >>= fun next => volume.follow next names := by
  rw [follow, follow]
  split
  · rfl
  · rfl
  · split
    · rw [follow]
      rfl
    · split
      · rw [follow]
        rfl
      · split
        · rfl
        · rw [follow]
          rfl

/-- A way can be followed in two parts. -/
theorem follow_append (volume : Volume) (place : Place) (front back : List String) :
    volume.follow place (front ++ back) =
      volume.follow place front >>= fun next => volume.follow next back := by
  induction front generalizing place with
  | nil => rfl
  | cons name front ih =>
    rw [List.cons_append, follow_cons, follow_cons volume place name front]
    cases volume.follow place [name] with
    | error fault => rfl
    | ok next => exact ih next

/-- Only from a directory does a way go on. -/
theorem entryAt?_of_follow {name : String} {names : List String}
    (h : volume.follow place (name :: names) = .ok found) :
    volume.entryAt? place = some .directory := by
  rw [follow] at h
  split at h
  · cases h
  · cases h
  · assumption

/-- A last step from a place to itself does not lead away from it. -/
theorem follow_of_concat_stay {names : List String}
    (h : volume.follow place (names ++ ["."]) = .ok found) :
    volume.follow place names = .ok found := by
  rw [follow_append] at h
  cases hnames : volume.follow place names with
  | error fault =>
    rw [hnames] at h
    cases h
  | ok reached =>
    rw [hnames] at h
    have hstay : volume.follow reached ["."] = .ok found := h
    rw [follow, entryAt?_of_follow hstay] at hstay
    exact hstay

/-- A way stays the way it is if a file is put where no directory has been. -/
theorem follow_insert {names : List String} {target : Place} (entry : Entry)
    (hroot : target ≠ []) (hfree : volume.entryAt? target ≠ some .directory)
    (h : volume.follow place names = .ok found) :
    (volume.insert target entry).follow place names = .ok found := by
  induction names generalizing place with
  | nil => exact h
  | cons name names ih =>
    have hdirectory := entryAt?_of_follow h
    have hne : place ≠ target := by
      rintro rfl
      exact hfree hdirectory
    have hsame : (volume.insert target entry).entryAt? place = some .directory := by
      rw [entryAt?_insert volume hroot, if_neg hne, hdirectory]
    rw [follow, hdirectory] at h
    rw [follow, hsame]
    simp only at h ⊢
    split at h
    · next hname => rw [if_pos hname]; exact ih h
    · next hname =>
      rw [if_neg hname]
      split at h
      · next hup => rw [if_pos hup]; exact ih h
      · next hup =>
        rw [if_neg hup]
        split at h
        · cases h
        · next hlength => rw [if_neg hlength]; exact ih h

/-! ## Writing and reading -/

/-- A place to write to is found by following the path, and is no directory. -/
theorem follow_of_placeToWrite {path : String} (h : volume.placeToWrite path = .ok place) :
    ∃ parsed : Path, Path.ofString path = .ok parsed ∧ parsed.slashAtEnd = false ∧
      volume.follow [] parsed.names = .ok place ∧ volume.entryAt? place ≠ some .directory := by
  unfold placeToWrite at h
  cases hparsed : Path.ofString path with
  | error fault =>
    rw [hparsed] at h
    cases h
  | ok parsed =>
    rw [hparsed] at h
    simp only [bind, Except.bind] at h
    split at h
    · cases h
    · next name hname =>
      split at h
      · cases h
      · next parent hparent =>
        split at h
        · cases h
        · next hslash =>
          split at h
          · cases h
          · next found hfound =>
            split at h
            · cases h
            · next hfree =>
              obtain rfl := Except.ok.inj h
              refine ⟨parsed, rfl, by simpa using hslash, ?_, hfree⟩
              -- the way to the file is the way to its directory and one more name
              have hway := follow_of_concat_stay hparent
              rw [← List.dropLast_append_getLast? name hname, follow_append, hway]
              exact hfound

/-- **A volume keeps its files**: what is written at a place is there to be read. -/
theorem keeps_of_placeToWrite {path : String} (h : volume.placeToWrite path = .ok place) :
    FileStore.Keeps volume path := by
  obtain ⟨parsed, hparsed, hslash, hfollow, hfree⟩ := follow_of_placeToWrite h
  have hroot : place ≠ [] := by
    rintro rfl
    exact hfree rfl
  intro bytes
  refine ⟨volume.insert place (.file bytes), ?_, ?_⟩
  · have hwrite : volume.write path bytes = .ok (volume.insert place (.file bytes)) := by
      rw [write, h]
      rfl
    simp only [FileStore.write, hwrite]
  · show (volume.insert place (.file bytes)).read path = .ok bytes
    have hread := follow_insert (.file bytes) hroot hfree hfollow
    have hentry := entryAt?_insert volume hroot (.file bytes) place
    rw [if_pos rfl] at hentry
    rw [read, hparsed]
    simp [bind, Except.bind, hslash, hread, hentry]

end Volume

/-- A path of one name. -/
theorem Path.ofString_single : Path.ofString "d" = .ok ⟨["d"], false⟩ := by
  -- the recursion that looks for slashes does not unfold by itself
  have hnames : "d".splitOn "/" = ["d"] := by
    rw [String.splitOn, if_neg (by decide), String.splitOnAux, if_neg (by decide +kernel),
      if_neg (by decide +kernel), String.splitOnAux]
    decide +kernel
  rw [ofString, hnames]
  decide +kernel

end Groundwork
