import Mathlib.Data.List.Basic
import StackMachine.Files.Store
import StackMachine.Proofs.Text.Utf8

/-!
# Trees of files

Putting an entry at a place, or writing to what stands there, changes no other place.  Where a path
leads depends only on which places hold directories, files and devices, and not on the bytes that
are in the files.  A path that leads to something that is no directory ends with its name.
-/

namespace StackMachine

/-! ### Changes at a place -/

namespace Store

variable {store : Store} {place q : Location}

theorem entry?_nil (hq : q ≠ []) :
  entry? [] q = none
  := if_neg hq

theorem entry?_cons (hq : q ≠ []) (p : Location) (e : Entry) :
  entry? ((p, e) :: store) q = if q = p then some e else store.entry? q
  := by
  rw [ entry?, if_neg hq, entry?, if_neg hq, List.lookup_cons]
  by_cases h : q = p
  · rw [if_pos h, h, beq_self_eq_true]
  · rw [if_neg h, beq_false_of_ne h]

/-- A place where an entry is put has it, and all others have what they had. -/
theorem entry?_put (hplace : place ≠ []) (entry : Entry) :
  entry? (store.put place entry) q = if q = place then some entry else store.entry? q
  := by
  by_cases hq : q = []
  · rw [hq, if_neg hplace.symm]
    rfl
  induction store with
  | nil => rw [put, entry?_cons hq]
  | cons pair r ih =>
    obtain ⟨p, e⟩ := pair
    rw [put]
    split
    · next h =>
      rw [entry?_cons hq, entry?_cons hq, h]
      split
      · rfl
      · rfl
    · next h =>
      rw [entry?_cons hq, entry?_cons hq, ih]
      exact ite_ite_comm (q = p) (q = place) _ _ fun hp hq => h (hp.symm.trans hq)

/-- A place where bytes are written has them, and all others have what they had. -/
theorem entry?_append (hplace : place ≠ []) (bytes : Bytes) :
  entry? (store.append place bytes).2 q
    = if q = place then (store.entry? place).map fun e => (e.write bytes).2 else store.entry? q
  := by
  by_cases hq : q = []
  · rw [hq, if_neg hplace.symm]
    rfl
  induction store with
  | nil =>
    rw [append, entry?_nil hq, entry?_nil hplace]
    split
    · rfl
    · rfl
  | cons pair r ih =>
    obtain ⟨p, e⟩ := pair
    rw [append]
    split
    · next h =>
      rw [entry?_cons hq, entry?_cons hq, entry?_cons hplace, h, if_pos rfl]
      split
      · rfl
      · rfl
    · next h =>
      have hne : place ≠ p := fun hp => h hp.symm
      rw [entry?_cons hplace, if_neg hne, entry?_cons hq, entry?_cons hq, ih]
      exact ite_ite_comm (q = p) (q = place) _ _ fun hp hq => h (hp.symm.trans hq)

/-- Whether writing fails is up to what stands at the place. -/
theorem append_fst (hplace : place ≠ []) (bytes : Bytes) :
  (store.append place bytes).1
    = ((store.entry? place).map fun e => (e.write bytes).1).getD (.ok ())
  := by
  induction store with
  | nil =>
    rw [entry?_nil hplace]
    rfl
  | cons pair r ih =>
    obtain ⟨p, e⟩ := pair
    rw [append, entry?_cons hplace]
    split
    · next h =>
      rw [if_pos h.symm]
      rfl
    · next h => rw [if_neg fun hp => h hp.symm, ← ih]

/-- A device keeps nothing of what is written to it. -/
theorem append_of_device {full : Bool} (hplace : place ≠ [])
    (h : store.entry? place = some (.device full)) (bytes : Bytes) :
  (store.append place bytes).2 = store
  := by
  induction store with
  | nil => rfl
  | cons pair r ih =>
    obtain ⟨p, e⟩ := pair
    rw [entry?_cons hplace] at h
    rw [append]
    split
    · next hp =>
      rw [if_pos hp.symm] at h
      cases h
      cases full <;> rfl
    · next hp =>
      rw [if_neg fun heq => hp heq.symm] at h
      exact congrArg ((p, e) :: ·) (ih h)

end Store

/-! ### Where paths lead -/

namespace Store

variable {store : Store} {place q : Location} {path : Text}

theorem follow_append (above below : List Text) :
  store.follow path place (above ++ below)
    = (store.follow path place above).bind fun p => store.follow path p below
  := by
  induction above generalizing place with
  | nil => rfl
  | cons part r ih =>
    rw [List.cons_append, follow, follow]
    split
    · rfl
    · split
      · apply ih
      · split
        · apply ih
        · split
          · rfl
          · apply ih
    · rfl

/-- A single part that can be followed is a name, or stands for a directory. -/
theorem of_follow_singleton {part : Text} (h : store.follow path place [part] = .ok q) :
  store.entry? place = some .directory
    ∧ ((part = [] ∨ part = Text.ofString ".") ∧ q = place
      ∨ part = Text.ofString ".." ∧ q = place.dropLast
      ∨ part ≠ [] ∧ part ≠ Text.ofString "." ∧ part ≠ Text.ofString ".." ∧ q = place ++ [part])
  := by
  rw [follow] at h
  split at h
  · cases h
  · next hplace =>
    use hplace
    split at h
    · next hpart =>
      cases h
      exact .inl ⟨hpart, rfl⟩
    · next hpart =>
      obtain ⟨hnil, hpoint⟩ := not_or.mp hpart
      split at h
      · next hpoints =>
        cases h
        exact .inr (.inl ⟨hpoints, rfl⟩)
      · next hpoints =>
        split at h
        · cases h
        · cases h
          exact .inr (.inr ⟨hnil, hpoint, hpoints, rfl⟩)
  · cases h

/-- A path leads where its parts lead from some place. -/
theorem exists_follow_of_locate {start : Location} (h : store.locate start path = .ok q) :
  ∃ p, store.follow path p (parts path) = .ok q
  := by
  rw [locate, followFrom] at h
  split at h
  · cases h
  · exact ⟨_, h⟩

/-- What leads somewhere with a part at its end leads to a place where that part can be followed. -/
theorem exists_of_follow_concat {above : List Text} {last : Text}
    (h : store.follow path place (above ++ [last]) = .ok q) :
  ∃ p, store.follow path p [last] = .ok q
  := by
  rw [follow_append] at h
  cases hp : store.follow path place above with
  | ok p =>
    rw [hp] at h
    exact ⟨p, h⟩
  | error failure =>
    rw [hp] at h
    cases h

end Store

/-! ### The last part of a path -/

namespace Store

variable {store : Store} {start q : Location} {path : Text}

theorem suffix_intercalate (separator last : Text) (above : List Text) :
  last <:+ separator.intercalate (above ++ [last])
  := by
  induction above with
  | nil => simp
  | cons part r ih =>
    rw [List.cons_append, List.intercalate_cons_of_ne_nil (by simp)]
    apply ih.trans (List.suffix_append _ _)

/-- A path ends with its last part. -/
theorem exists_parts (path : Text) :
  ∃ above last, parts path = above ++ [last] ∧ last <:+ path.repaired
  := by
  obtain ⟨above, last, hparts⟩ := (parts path).eq_nil_or_concat.resolve_left
    (List.splitOn_ne_nil _ _)
  rw [List.concat_eq_append] at hparts
  use above, last, hparts
  have hsuffix := suffix_intercalate [separator] last above
  rw [← hparts, parts, List.intercalate_splitOn] at hsuffix
  exact hsuffix

/-- A name in ASCII, which is a single part of a path and does not stand for a directory. -/
structure IsName (name : Text) : Prop where
  isAscii : name.IsAscii
  single : separator ∉ name
  ne_nil : name ≠ []
  ne_point : name ≠ Text.ofString "."
  ne_points : name ≠ Text.ofString ".."

/-- The last part of a path that ends with the separator and a name is the name. -/
theorem exists_parts_of_suffix {name : Text} (hname : IsName name)
    (h : separator :: name <:+ path) :
  ∃ above, parts path = above ++ [name]
  := by
  have hascii : Text.IsAscii (separator :: name) := Text.isAscii_cons.mpr ⟨by decide, hname.isAscii⟩
  obtain ⟨before, hbefore⟩ := (Text.suffix_repaired_iff hascii).mpr h
  use List.splitOn separator before
  rw [parts, ← hbefore, List.splitOn_append_cons_self, List.splitOn_eq_singleton hname.single]

/-- A path that ends with the separator and a name leads to a place of that name. -/
theorem exists_of_locate_suffix {name : Text} (hname : IsName name)
    (h : separator :: name <:+ path) (hlocate : store.locate start path = .ok q) :
  ∃ p, q = p ++ [name]
  := by
  obtain ⟨above, hparts⟩ := exists_parts_of_suffix hname h
  obtain ⟨p, hfollow⟩ := exists_follow_of_locate hlocate
  rw [hparts] at hfollow
  obtain ⟨p, hfollow⟩ := exists_of_follow_concat hfollow
  obtain ⟨-, ⟨hpart | hpart, -⟩ | ⟨hpart, -⟩ | ⟨-, -, -, hq⟩⟩ := of_follow_singleton hfollow
  · exact absurd hpart hname.ne_nil
  · exact absurd hpart hname.ne_point
  · exact absurd hpart hname.ne_points
  · exact ⟨p, hq⟩

/-- A path that leads to something that is no directory ends with a name or with two points. -/
theorem exists_last_of_locate {e : Entry} (hlocate : store.locate start path = .ok q)
    (he : store.entry? q = some e) (hfile : e ≠ .directory) :
  ∃ above last p, parts path = above ++ [last] ∧ last <:+ path.repaired
    ∧ store.entry? p = some .directory ∧ last ≠ []
    ∧ (last = Text.ofString ".." ∧ q = p.dropLast ∨ q = p ++ [last])
  := by
  obtain ⟨above, last, hparts, hsuffix⟩ := exists_parts path
  obtain ⟨p, hfollow⟩ := exists_follow_of_locate hlocate
  rw [hparts] at hfollow
  obtain ⟨p, hfollow⟩ := exists_of_follow_concat hfollow
  obtain ⟨hp, ⟨-, rfl⟩ | ⟨rfl, hq⟩ | ⟨hnil, -, -, hq⟩⟩ := of_follow_singleton hfollow
  · rw [hp] at he
    cases he
    exact absurd rfl hfile
  · exact ⟨above, _, p, hparts, hsuffix, hp, by decide, .inl ⟨rfl, hq⟩⟩
  · exact ⟨above, last, p, hparts, hsuffix, hp, hnil, .inr hq⟩

/-- What is read is in a file, or there is nothing to be read at a device. -/
theorem exists_of_read {bytes : Bytes} (h : store.read start path = .ok bytes) :
  ∃ place, store.locate start path = .ok place
    ∧ (store.entry? place = some (.file bytes)
      ∨ ∃ full, store.entry? place = some (.device full) ∧ bytes = #[])
  := by
  rw [read] at h
  cases hlocate : store.locate start path with
  | error failure =>
    rw [hlocate] at h
    cases h
  | ok place =>
    use place, rfl
    rw [hlocate] at h
    simp only [bind, Except.bind] at h
    split at h
    · cases h
    · cases h
    · next hentry =>
      cases h
      exact .inl hentry
    · next full hentry =>
      cases h
      exact .inr ⟨full, hentry, rfl⟩

theorem read_of_file {place : Location} {bytes : Bytes}
    (hlocate : store.locate start path = .ok place)
    (hfile : store.entry? place = some (.file bytes)) :
  store.read start path = .ok bytes
  := by
  rw [read, hlocate]
  simp only [bind, Except.bind, hfile]

/-- What is no directory is opened at the place where the path leads. -/
theorem locateNew_of_locate {e : Entry} (hlocate : store.locate start path = .ok q)
    (he : store.entry? q = some e) (hfile : e ≠ .directory) :
  store.locateNew start path = .ok q
  := by
  obtain ⟨above, last, -, hparts, -, -, hlast, -⟩ := exists_last_of_locate hlocate he hfile
  have hnone : partsAbove? path = none := by
    rw [partsAbove?, hparts, List.reverse_append, List.reverse_singleton, List.singleton_append]
    cases last with
    | nil => exact absurd rfl hlast
    | cons u r => rfl
  rw [locateNew, hnone, hlocate]

end Store

/-! ### Opening a file -/

/-- What stands at a place after a file is opened there. -/
def Entry.opened : Option Entry → Entry
  | some (.device full) => .device full
  | _ => .file #[]

namespace Store

variable {store : Store} {start place : Location} {path : Text}

/-- No file is opened at the empty path. -/
theorem locateNew_nil :
  store.locateNew start [] = .error (.missing [])
  := rfl

theorem openNew_of_not_located {failure : FileFailure}
    (hlocate : store.locateNew start path = .error failure) :
  store.openNew start path = .error failure
  := by
  rw [openNew, hlocate]
  rfl

theorem openNew_of_directory (hlocate : store.locateNew start path = .ok place)
    (hdirectory : store.entry? place = some .directory) :
  store.openNew start path = .error (.directoryOpened path)
  := by
  rw [openNew, hlocate]
  simp only [bind, Except.bind, hdirectory]

/-- Opening a device changes nothing. -/
theorem openNew_of_device {full : Bool} (hlocate : store.locateNew start path = .ok place)
    (hdevice : store.entry? place = some (.device full)) :
  store.openNew start path = .ok (place, store)
  := by
  rw [openNew, hlocate]
  simp only [bind, Except.bind, hdevice]

/-- Opening a file at a path that does not lead to a directory changes only what is at its place. -/
theorem exists_openNew (hlocate : store.locateNew start path = .ok place)
    (hfile : store.entry? place ≠ some .directory) :
  place ≠ [] ∧ ∃ files, store.openNew start path = .ok (place, files)
    ∧ ∀ q, files.entry? q
      = if q = place then some (Entry.opened (store.entry? place)) else store.entry? q
  := by
  have hplace : place ≠ [] := by
    rintro rfl
    exact hfile rfl
  use hplace
  rw [openNew, hlocate]
  cases hentry : store.entry? place with
  | none =>
    simp only [bind, Except.bind, hentry]
    exact ⟨_, rfl, fun q => entry?_put hplace _⟩
  | some e =>
    cases e with
    | directory => exact absurd hentry hfile
    | file bytes =>
      simp only [bind, Except.bind, hentry]
      exact ⟨_, rfl, fun q => entry?_put hplace _⟩
    | device full =>
      have hopen := openNew_of_device hlocate hentry
      rw [openNew, hlocate] at hopen
      refine ⟨_, hopen, ?_⟩
      intro q
      split
      · next hq => rw [hq, hentry, Entry.opened]
      · rfl

end Store

/-! ### Trees that differ in the bytes of files -/

namespace Store

/-- Two trees that differ at most in the bytes that are in the files. -/
def Alike (store other : Store) : Prop :=
  ∀ place, store.entry? place = other.entry? place
    ∨ ∃ bytes bytes', store.entry? place = some (.file bytes)
      ∧ other.entry? place = some (.file bytes')

namespace Alike

variable {store other : Store} (h : store.Alike other)

include h

theorem follow (path : Text) (place : Location) (parts : List Text) :
  store.follow path place parts = other.follow path place parts
  := by
  induction parts generalizing place with
  | nil => rfl
  | cons part r ih =>
    rw [Store.follow, Store.follow]
    rcases h place with heq | ⟨bytes, bytes', hfile, hfile'⟩
    · rw [heq]
      simp only [ih]
    · rw [hfile, hfile']

theorem followFrom (start : Location) (path : Text) (parts : List Text) :
  store.followFrom start path parts = other.followFrom start path parts
  := by
  simp only [Store.followFrom, h.follow]

theorem locate (start : Location) (path : Text) :
  store.locate start path = other.locate start path
  := h.followFrom start path _

theorem locateNew (start : Location) (path : Text) :
  store.locateNew start path = other.locateNew start path
  := by
  simp only [Store.locateNew, h.locate, h.followFrom]

theorem opened (place : Location) :
  Entry.opened (store.entry? place) = Entry.opened (other.entry? place)
  := by
  rcases h place with heq | ⟨bytes, bytes', hfile, hfile'⟩
  · rw [heq]
  · rw [hfile, hfile']
    rfl

theorem directory_iff (place : Location) :
  store.entry? place = some .directory ↔ other.entry? place = some .directory
  := by
  rcases h place with heq | ⟨bytes, bytes', hfile, hfile'⟩
  · rw [heq]
  · rw [hfile, hfile']
    constructor <;> rintro ⟨⟩

theorem contains (start : Location) (path : Text) :
  store.contains start path = other.contains start path
  := by
  rw [Store.contains, Store.contains, h.locate]
  split
  · next place _ =>
    rcases h place with heq | ⟨bytes, bytes', hfile, hfile'⟩
    · rw [heq]
    · rw [hfile, hfile']
      rfl
  · rfl

/-- Opening a file fails in both trees or in none; and then the same is at its place. -/
theorem openNew (start : Location) (path : Text) :
  (∃ failure, store.openNew start path = .error failure
    ∧ other.openNew start path = .error failure)
  ∨ ∃ place files files' e, place ≠ [] ∧ store.locateNew start path = .ok place
    ∧ store.openNew start path = .ok (place, files)
    ∧ other.openNew start path = .ok (place, files')
    ∧ (∀ q, files.entry? q = if q = place then e else store.entry? q)
    ∧ ∀ q, files'.entry? q = if q = place then e else other.entry? q
  := by
  have hlocate := h.locateNew start path
  cases hnew : store.locateNew start path with
  | error failure =>
    rw [hnew] at hlocate
    exact .inl ⟨failure, openNew_of_not_located hnew, openNew_of_not_located hlocate.symm⟩
  | ok place =>
    rw [hnew] at hlocate
    by_cases hdirectory : store.entry? place = some .directory
    · have hdirectory' := (h.directory_iff place).mp hdirectory
      exact .inl ⟨_, openNew_of_directory hnew hdirectory,
        openNew_of_directory hlocate.symm hdirectory'⟩
    · have hfile : other.entry? place ≠ some .directory := fun hdirectory' =>
        hdirectory ((h.directory_iff place).mpr hdirectory')
      obtain ⟨hplace, files, hopen, hfiles⟩ := exists_openNew hnew hdirectory
      obtain ⟨-, files', hopen', hfiles'⟩ := exists_openNew hlocate.symm hfile
      rw [← h.opened] at hfiles'
      exact .inr ⟨place, files, files', _, hplace, rfl, hopen, hopen', hfiles, hfiles'⟩

end Alike

end Store

/-! ### Trees -/

namespace Store

/-- A store in which everything is in a directory. -/
def IsTree (store : Store) : Prop :=
  ∀ place, (store.entry? place).isSome = true → store.entry? place.dropLast = some .directory

/-- In a tree, a path that leads to something that is no directory ends with the name of its
place. -/
theorem IsTree.exists_name {store : Store} (h : store.IsTree) {start q : Location} {path : Text}
    {e : Entry} (hlocate : store.locate start path = .ok q) (he : store.entry? q = some e)
    (hfile : e ≠ .directory) :
  ∃ p name, q = p ++ [name] ∧ name <:+ path.repaired
  := by
  obtain ⟨_, name, p, -, hsuffix, hp, -, ⟨-, rfl⟩ | hq⟩ := exists_last_of_locate hlocate he hfile
  · rw [h p (by rw [hp]; rfl)] at he
    cases he
    exact absurd rfl hfile
  · exact ⟨p, name, hq, hsuffix⟩

end Store

end StackMachine
