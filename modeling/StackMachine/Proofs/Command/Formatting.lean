import Mathlib.Tactic.Use
import StackMachine.Command.Format
import StackMachine.Proofs.Assembly.Canonical
import StackMachine.Proofs.Assembly.ReadingBack
import StackMachine.Proofs.Command.Agreement
import StackMachine.Proofs.Command.Checking

/-!
# Formatting in place

Formatting changes a file only if it is to be written back, is not JSON and holds text that
assembles; and then it leaves the listing of the code in it.  If the file passed the check before,
the listing is loaded as the same program, so that it passes the check in the same way, and its
runs have the same outcome and the same trace.  In a tree of files, formatting never changes a
configuration.
-/

namespace StackMachine

/-! ### Listings as files -/

theorem CodeUnit.isAscii_of_isListed {u : CodeUnit} (h : u.isListed = true) :
  u.IsAscii
  := by
  have hmarks : (Text.ofString " :.+-\n").all (fun v => v < 0x80) = true := by decide
  rcases Bool.or_eq_true_iff.mp h with hpart | hmark
  · rw [IsAscii, UInt16.lt_iff_toNat_lt]
    simp only [isWordPart, isWordStart, isLetter, isDigit, Bool.or_eq_true, Bool.and_eq_true,
      decide_eq_true_eq, beq_iff_eq, UInt16.le_iff_toNat_le, ← UInt16.toNat_inj,
      UInt16.reduceToNat] at hpart ⊢
    omega
  · exact of_decide_eq_true (List.all_eq_true.mp hmarks u (List.contains_iff_mem.mp hmark))

/-- A listing is read back from its bytes. -/
theorem Program.decode_encode_listing (p : Program) :
  Utf8.decode (Utf8.encode p.listing) = p.listing
  := by
  apply Utf8.decode_encode
  intro u hu
  apply CodeUnit.isAscii_of_isListed
  exact List.all_eq_true.mp p.isListed_listing u hu

/-- Assembled code in which validation finds nothing wrong is read back from its listing. -/
theorem Assembly.assemble_listing_of_validate {source : Text} {code : Code}
    (hcode : assemble source = .ok code) (hlength : source.length ≤ Number.maxSafe)
    (hvalid : validate code.toProgram.toData = .ok []) :
  assemble (Program.listing code.toProgram) = .ok code
  := by
  have hcount : code.length ≤ Number.maxSafe := by
    have := length_of_assemble hcode
    omega
  obtain ⟨hwell, -, htargets⟩ := Code.validate_toProgram_iff.mp hvalid
  have hlt : ∀ t ∈ code.targets, t < code.length := by
    intro t ht
    obtain ⟨i, hi, htarget⟩ := Code.mem_targets.mp ht
    apply htargets i hi t htarget
  have hlisting := assemble_listing_toProgram hwell fun t ht =>
    Nat.le_trans (Nat.le_of_lt (hlt t ht)) hcount
  have hclip : code.clip = code := Code.clip_eq_self_iff.mpr fun t ht => Nat.le_of_lt (hlt t ht)
  rw [hlisting]
  exact congrArg Except.ok hclip

/-! ### Files that hold code -/

namespace World

/-- A file of a world stands at a place and holds a text that assembles to code. -/
structure HoldsCode (world : World) (file : Text) (place : Location) (source : Text)
    (code : Code) : Prop where
  located : world.files.locate world.work file = .ok place
  holds : ∃ bytes, world.entryAt place = some (.file bytes) ∧ Utf8.decode bytes.toList = source
  assembles : Assembly.assembleFile source file = .ok code

/-- After a change the file at a place holds a text, and all else is as it was. -/
structure Rewrites (before : World) (place : Location) (contents : Text) (after : World) :
    Prop where
  contents : after.entryAt place = some (.file (Utf8.encode contents).toArray)
  others : ∀ q, q ≠ place → after.entryAt q = before.entryAt q
  work : after.work = before.work
  home : after.home = before.home
  input : after.input = before.input
  clock : after.clock = before.clock
  runId : after.runId = before.runId

variable {world after : World} {file source contents : Text} {place : Location} {code : Code}

/-- Where a file is rewritten, the two worlds are alike. -/
theorem HoldsCode.alike (h : world.HoldsCode file place source code)
    (hafter : world.Rewrites place contents after) :
  world.Alike after
  := by
  obtain ⟨bytes, hentry, -⟩ := h.holds
  refine ⟨?_, hafter.work.symm, hafter.home.symm, hafter.input.symm, hafter.clock.symm,
    hafter.runId.symm⟩
  intro q
  by_cases hq : q = place
  · rw [hq]
    exact .inr ⟨bytes, _, hentry, hafter.contents⟩
  · exact .inl (hafter.others q hq).symm

theorem HoldsCode.read (h : world.HoldsCode file place source code) :
  ∃ bytes, world.files.read world.work file = .ok bytes ∧ Utf8.decode bytes.toList = source
  := by
  obtain ⟨bytes, hentry, hsource⟩ := h.holds
  exact ⟨bytes, Store.read_of_file h.located hentry, hsource⟩

/-- A file that is rewritten is read with its new contents. -/
theorem HoldsCode.read_after (h : world.HoldsCode file place source code)
    (hafter : world.Rewrites place contents after) :
  after.files.read after.work file = .ok (Utf8.encode contents).toArray
  := by
  apply Store.read_of_file _ hafter.contents
  rw [hafter.work, ← (h.alike hafter).files.locate, h.located]

end World

namespace Command

/-! ### What formatting does -/

variable {file : Text} {world : World}

/-- What is formatted was read and loaded, and is not JSON that is to be written back. -/
theorem exists_of_formatted {write : Bool} {bytes : Except FileFailure Bytes}
    {listing warning : Text} (h : formatted file write bytes = .ok (listing, warning)) :
  ∃ b program, bytes = .ok b ∧ Program.ofFile (Utf8.decode b.toList) file = .ok program
    ∧ (write && ProgramFile.isJson file) = false ∧ listing = program.listing
    ∧ warning = commentWarning (Utf8.decode b.toList) file
  := by
  cases bytes with
  | error failure => cases h
  | ok b =>
    cases hprogram : Program.ofFile (Utf8.decode b.toList) file with
    | error diagnostics =>
      simp only [formatted, sourceText, loadProgram, bind, Except.bind, hprogram,
        Except.mapError] at h
      cases h
    | ok program =>
      simp only [formatted, sourceText, loadProgram, bind, Except.bind, hprogram,
        Except.mapError] at h
      split at h
      · cases h
      · next hwrite =>
        cases h
        exact ⟨b, program, rfl, hprogram, Bool.eq_false_of_not_eq_true hwrite, rfl, rfl⟩

theorem format_of_not_formatted {write : Bool} {outcome : Outcome}
    (h : formatted file write (world.files.read world.work file) = .error outcome) :
  (format file write : StateM World _) world = (outcome, world)
  := by
  simp only [format, bind, StateT.bind, Environment.read, h]
  rfl

theorem format_of_output {listing warning : Text}
    (h : formatted file false (world.files.read world.work file) = .ok (listing, warning)) :
  (format file false : StateM World _) world
    = ({ code := 0, stdout := listing, stderr := warning }, world)
  := by
  simp only [format, bind, StateT.bind, Environment.read, h]
  rfl

section

variable {listing warning : Text}
  (h : formatted file true (world.files.read world.work file) = .ok (listing, warning))

include h

/-- What is written back is all that formatting in place changes. -/
theorem snd_format_of_formatted :
  ((format file true : StateM World _) world).2
    = ((overwrite file listing : StateM World _) world).2
  := by
  simp only [format, bind, StateT.bind, Environment.read, h]
  simp only [if_true, StateT.bind]
  rcases (overwrite file listing : StateM World _) world with ⟨r | r, after⟩
  · rfl
  · rfl

theorem format_of_overwritten {after : World}
    (hwrite : (overwrite file listing : StateM World _) world = (.ok (), after)) :
  (format file true : StateM World _) world = ({ code := 0, stderr := warning }, after)
  := by
  simp only [format, bind, StateT.bind, Environment.read, h]
  simp only [if_true, StateT.bind, hwrite]
  rfl

end

section

variable {place : Location} (hlocate : world.files.locate world.work file = .ok place)

include hlocate

/-- A file is rewritten where its path leads. -/
theorem overwrite_of_file {bytes : Bytes} (hentry : world.entryAt place = some (.file bytes))
    (contents : Text) :
  ∃ after, (overwrite file contents : StateM World _) world = (.ok (), after)
    ∧ world.Rewrites place contents after
  := by
  have hfile : world.files.entry? place = some (.file bytes) := hentry
  have hnew := Store.locateNew_of_locate hlocate hfile (by rintro ⟨⟩)
  obtain ⟨hplace, files, hopen, hfiles⟩ := Store.exists_openNew hnew (by
    rw [hfile]
    rintro ⟨⟩)
  have hopen := World.openNew_of_ok hopen
  have hempty : files.entry? place = some (.file #[]) := by
    rw [hfiles, if_pos rfl, hfile]
    rfl
  have hwrites (b : Bytes) : (files.append place b).1 = .ok () := by
    rw [Store.append_fst hplace, hempty]
    rfl
  have hwritten (b : Bytes) (q : Location) :
      Store.entry? (files.append place b).2 q
        = if q = place then some (.file b) else files.entry? q := by
    rw [Store.entry?_append hplace, hempty, Option.map_some, Entry.write, Array.empty_append]
  refine ⟨(World.writeAt place (Utf8.encode contents).toArray { world with files }).2, ?_, ?_⟩
  · simp only [overwrite, bind, StateT.bind, Environment.openNew, hopen]
    exact Prod.ext (hwrites _) rfl
  · refine ⟨?_, ?_, rfl, rfl, rfl, rfl, rfl⟩
    · exact (hwritten _ place).trans (if_pos rfl)
    · intro q hq
      exact (hwritten _ q).trans ((if_neg hq).trans ((hfiles q).trans (if_neg hq)))

/-- What is written to a device changes nothing. -/
theorem overwrite_of_device {full : Bool} (hentry : world.entryAt place = some (.device full))
    (contents : Text) :
  ((overwrite file contents : StateM World _) world).2 = world
  := by
  have hdevice : world.files.entry? place = some (.device full) := hentry
  have hnew := Store.locateNew_of_locate hlocate hdevice (by rintro ⟨⟩)
  have hopen := World.openNew_of_ok (Store.openNew_of_device hnew hdevice)
  have hplace : place ≠ [] := by
    rintro rfl
    cases hdevice
  simp only [overwrite, bind, StateT.bind, Environment.openNew, hopen]
  simp only [World.writeAt, Store.append_of_device hplace hdevice]

end

/-- The program of a file that is not JSON is that of code. -/
theorem exists_code_of_ofFile {source : Text} {program : Program}
    (hjson : ProgramFile.isJson file = false) (h : Program.ofFile source file = .ok program) :
  ∃ code, Assembly.assembleFile source file = .ok code ∧ program = code.toProgram
  := by
  rw [Program.ofFile, hjson] at h
  obtain ⟨code, hcode, rfl⟩ := Instruction.map_eq_ok h
  exact ⟨code, hcode, rfl⟩

theorem ofFile_of_assembleFile {source : Text} {code : Code}
    (hjson : ProgramFile.isJson file = false) (h : Assembly.assembleFile source file = .ok code) :
  Program.ofFile source file = .ok code.toProgram
  := by
  rw [Program.ofFile, hjson, h]
  rfl

/-- Formatting changes nothing unless a file that is not JSON and whose text assembles is to be
written back. -/
theorem snd_format (write : Bool)
    (h : ¬ (write = true ∧ ProgramFile.isJson file = false
      ∧ ∃ place source code, world.HoldsCode file place source code)) :
  ((format file write : StateM World _) world).2 = world
  := by
  cases hformatted : formatted file write (world.files.read world.work file) with
  | error outcome => rw [format_of_not_formatted hformatted]
  | ok result =>
    obtain ⟨listing, warning⟩ := result
    cases write with
    | false => rw [format_of_output hformatted]
    | true =>
      obtain ⟨bytes, program, hread, hprogram, hjson, -⟩ := exists_of_formatted hformatted
      rw [Bool.true_and] at hjson
      obtain ⟨code, hcode, -⟩ := exists_code_of_ofFile hjson hprogram
      obtain ⟨place, hlocate, hfile | ⟨full, hdevice, -⟩⟩ := Store.exists_of_read hread
      · exact absurd ⟨rfl, hjson, place, _, code, hlocate, ⟨bytes, hfile, rfl⟩, hcode⟩ h
      · rw [snd_format_of_formatted hformatted]
        apply overwrite_of_device hlocate hdevice

/-! ### What formatting keeps -/

section

variable {place : Location} {source : Text} {code : Code} {after : World}
  (h : world.HoldsCode file place source code) (hjson : ProgramFile.isJson file = false)

include h hjson

/-- A file whose text assembles is rewritten with the listing of its code. -/
theorem format_of_holdsCode :
  ∃ after, (format file true : StateM World _) world
      = ({ code := 0, stderr := commentWarning source file }, after)
    ∧ world.Rewrites place (Program.listing code.toProgram) after
  := by
  obtain ⟨bytes, hread, rfl⟩ := h.read
  have hformatted : formatted file true (world.files.read world.work file)
      = .ok (Program.listing code.toProgram, commentWarning (Utf8.decode bytes.toList) file) := by
    simp only [formatted, hread, sourceText, loadProgram, bind, Except.bind,
      ofFile_of_assembleFile hjson h.assembles, Except.mapError, hjson, Bool.and_false]
    rfl
  obtain ⟨bytes, hentry, -⟩ := h.holds
  obtain ⟨after, hwrite, hafter⟩ := overwrite_of_file h.located hentry
    (Program.listing code.toProgram)
  exact ⟨after, format_of_overwritten hformatted hwrite, hafter⟩

variable (hafter : world.Rewrites place (Program.listing code.toProgram) after)

include hafter

/-- What is found at the path of a JSON file is not changed. -/
theorem foundAt_of_rewrites (htree : world.files.IsTree) {path name : Text}
    (hname : Store.IsName name) (hending : Text.ofString ".json" <:+ name)
    (hsuffix : Store.separator :: name <:+ path) :
  foundAt path world = foundAt path after
  := by
  have halike := h.alike hafter
  have hread : world.files.read world.work path = after.files.read world.work path := by
    rw [Store.read, Store.read, ← halike.files.locate]
    cases hlocate : world.files.locate world.work path with
    | error failure => rfl
    | ok q =>
      have hq : q ≠ place := by
        rintro rfl
        obtain ⟨p, rfl⟩ := Store.exists_of_locate_suffix hname hsuffix hlocate
        obtain ⟨bytes, hentry, -⟩ := h.holds
        obtain ⟨p', name', heq, hsuffix'⟩ := htree.exists_name h.located hentry (by rintro ⟨⟩)
        obtain ⟨-, hnames⟩ := List.append_inj' heq rfl
        cases hnames
        have hfile := (Text.suffix_repaired_iff hname.isAscii).mp hsuffix'
        have hjson' : ProgramFile.isJson file = true :=
          List.isSuffixOf_iff_suffix.mpr ((hending.trans hfile).map CodeUnit.toLower)
        rw [hjson] at hjson'
        cases hjson'
      have hentry : after.files.entry? q = world.files.entry? q := hafter.others q hq
      simp only [bind, Except.bind, hentry]
  rw [foundAt, foundAt, hread, ← halike.work, halike.files.contains]

/-- In a tree, formatting changes no configuration. -/
theorem configIn_of_rewrites (htree : world.files.IsTree) (pretty : Bool) :
  configIn pretty world = configIn pretty after
  := by
  have hproject : projectPath world = projectPath after := by
    rw [projectPath, projectPath, hafter.work]
  have huser : userPath world = userPath after := by
    rw [userPath, userPath, hafter.home]
  have hnames : Store.IsName ".tallyrc.json" ∧ Store.IsName "config.json" :=
    ⟨⟨by decide, by decide, by decide, by decide, by decide⟩,
      ⟨by decide, by decide, by decide, by decide, by decide⟩⟩
  rw [configIn, configIn,
    foundAt_of_rewrites h hjson hafter htree hnames.1 ⟨Text.ofString ".tallyrc", rfl⟩
      (suffix_projectPath world),
    foundAt_of_rewrites h hjson hafter htree hnames.2 ⟨Text.ofString "config", rfl⟩
      (suffix_userPath world), hproject, huser]

variable (hlength : source.length ≤ Number.maxSafe)

include hlength

/-- If a file passes the check, then the same program is loaded from its listing. -/
theorem loaded_of_rewrites {pretty : Bool} {program : Program}
    (hloaded : loaded pretty file (world.files.read world.work file) = .ok program)
    (pretty' : Bool) :
  loaded pretty' file (world.files.read world.work file) = .ok program
    ∧ loaded pretty' file (after.files.read after.work file) = .ok program
  := by
  obtain ⟨bytes, hread, rfl⟩ := h.read
  obtain ⟨_, hread', hprogram, hvalid⟩ := loaded_eq_ok_iff.mp hloaded
  cases hread.symm.trans hread'
  use loaded_eq_ok_iff.mpr ⟨bytes, hread, hprogram, hvalid⟩
  apply loaded_eq_ok_iff.mpr
  refine ⟨_, h.read_after hafter, ?_, hvalid⟩
  cases hprogram.symm.trans (ofFile_of_assembleFile hjson h.assembles)
  apply ofFile_of_assembleFile hjson
  rw [Program.decode_encode_listing, Assembly.assembleFile,
    Assembly.assemble_listing_of_validate (Assembly.assemble_of_assembleFile h.assembles) hlength
      hvalid]
  rfl

/-- If a file passes the check, then its listing passes it in the same way, and its runs have the
same outcome and change the same. -/
theorem check_and_run_of_rewrites {pretty : Bool}
    (hcheck : ((check file pretty : StateM World _) world).1.code = 0) :
  (∀ pretty', ((check file pretty' : StateM World _) after).1
      = ((check file pretty' : StateM World _) world).1)
    ∧ ∀ fuel trace maxSteps pretty', configIn pretty' world = configIn pretty' after →
      ((run fuel file trace maxSteps pretty' : StateM World _) world).1
          = ((run fuel file trace maxSteps pretty' : StateM World _) after).1
        ∧ World.SameChanges trace world after
          ((run fuel file trace maxSteps pretty' : StateM World _) world).2
          ((run fuel file trace maxSteps pretty' : StateM World _) after).2
  := by
  obtain ⟨program, hloaded⟩ : ∃ program,
      loaded pretty file (world.files.read world.work file) = .ok program := by
    cases hloaded : loaded pretty file (world.files.read world.work file) with
    | ok program => exact ⟨program, rfl⟩
    | error outcome =>
      rw [check_eq, checkBytes_of_not_loaded hloaded] at hcheck
      exact absurd hcheck (code_ne_zero_of_loaded hloaded).1
  have hprogram := loaded_of_rewrites h hjson hafter hlength hloaded
  constructor
  · intro pretty'
    obtain ⟨hbefore, hnow⟩ := hprogram pretty'
    rw [check_eq, check_eq, checkBytes_of_loaded hbefore, checkBytes_of_loaded hnow]
  · intro fuel trace maxSteps pretty' hconfig
    apply run_alike (h.alike hafter) pretty' trace fuel maxSteps _ hconfig
    by_cases hinput : file = inputName
    · rw [sourceOf, sourceOf, if_pos hinput, if_pos hinput, hafter.input]
    · obtain ⟨hbefore, hnow⟩ := hprogram pretty'
      rw [sourceOf_of_ne hinput, sourceOf_of_ne hinput, hbefore, hnow]

end

/-- Formatting changes a file only if it fully succeeds.  It changes nothing unless a file that is
not JSON and whose text assembles is to be written back.  Then it succeeds and leaves the listing
of the code in the file.  If the file passed the check, the listing passes it in the same way, and
under the same configuration the runs have the same outcome and change the same, the trace
included.  In a tree the configuration is always the same.  No text has more than `2 ^ 53 - 1`
units. -/
theorem format_changes_on_success (file : Text) (world : World) :
  (∀ write, ¬ (write = true ∧ ProgramFile.isJson file = false
      ∧ ∃ place source code, world.HoldsCode file place source code) →
    ((format file write : StateM World _) world).2 = world)
  ∧ ∀ place source code, ProgramFile.isJson file = false →
    world.HoldsCode file place source code →
    ∃ after, (format file true : StateM World _) world
        = ({ code := 0, stderr := commentWarning source file }, after)
      ∧ world.Rewrites place (Program.listing code.toProgram) after
      ∧ (source.length ≤ Number.maxSafe → ∀ pretty,
        ((check file pretty : StateM World _) world).1.code = 0 →
        (∀ pretty', ((check file pretty' : StateM World _) after).1
          = ((check file pretty' : StateM World _) world).1)
        ∧ ∀ fuel trace maxSteps pretty',
          ((resolveConfig pretty' : StateM World _) world).1
            = ((resolveConfig pretty' : StateM World _) after).1 →
          ((run fuel file trace maxSteps pretty' : StateM World _) world).1
            = ((run fuel file trace maxSteps pretty' : StateM World _) after).1
          ∧ World.SameChanges trace world after
            ((run fuel file trace maxSteps pretty' : StateM World _) world).2
            ((run fuel file trace maxSteps pretty' : StateM World _) after).2)
      ∧ (world.files.IsTree → ∀ pretty,
        ((resolveConfig pretty : StateM World _) world).1
          = ((resolveConfig pretty : StateM World _) after).1)
  := by
  simp only [resolveConfig_eq]
  use snd_format
  intro place source code hjson h
  obtain ⟨after, hformat, hafter⟩ := format_of_holdsCode h hjson
  refine ⟨after, hformat, hafter, ?_, ?_⟩
  · intro hlength pretty hcheck
    apply check_and_run_of_rewrites h hjson hafter hlength hcheck
  · intro htree pretty
    apply configIn_of_rewrites h hjson hafter htree

/-- A world with nothing but a program. -/
def worldToFormat (source : Text) : World :=
  { files := [([Text.ofString "p.tasm"], .file (Utf8.encode source).toArray)]
    work := [], home := [Text.ofString "home"], input := #[], clock := 0, runId := "r" }

theorem isTree_worldToFormat (source : Text) :
  (worldToFormat source).files.IsTree
  := by
  intro place h
  by_cases hroot : place = []
  · rw [hroot]
    rfl
  · rw [worldToFormat, Store.entry?_cons hroot] at h
    split at h
    · next hplace =>
      rw [hplace]
      rfl
    · rw [Store.entry?_nil hroot] at h
      cases h

/-- A program is formatted, and then passes the check and runs as before, with a trace that takes
its place. -/
theorem format_changes_on_success_comment :
  ∃ after, (format "p.tasm" true : StateM World _) (worldToFormat "loadc 1 #one\nhalt")
      = ({ code := 0, stderr := commentWarning "loadc 1 #one\nhalt" "p.tasm" }, after)
    ∧ after.entryAt [Text.ofString "p.tasm"]
      = some (.file (Utf8.encode "  loadc 1\n  halt\n").toArray)
    ∧ ((check "p.tasm" true : StateM World _) after).1
      = ((check "p.tasm" true : StateM World _) (worldToFormat "loadc 1 #one\nhalt")).1
    ∧ ((run 9 "p.tasm" (some "p.tasm") none true : StateM World _)
        (worldToFormat "loadc 1 #one\nhalt")).1
      = ((run 9 "p.tasm" (some "p.tasm") none true : StateM World _) after).1
  := by
  have hholds : (worldToFormat "loadc 1 #one\nhalt").HoldsCode "p.tasm" [Text.ofString "p.tasm"]
      "loadc 1 #one\nhalt" [.loadc 1, .halt] := by
    refine ⟨?_, ⟨_, rfl, ?_⟩, ?_⟩
    · decide +kernel
    · decide +kernel
    · decide +kernel
  obtain ⟨-, hsucceeds⟩ := format_changes_on_success "p.tasm" (worldToFormat "loadc 1 #one\nhalt")
  obtain ⟨after, hformat, hafter, hkeeps, hconfig⟩ := hsucceeds _ _ _ (by decide) hholds
  have hpasses : ((check "p.tasm" true : StateM World _)
      (worldToFormat "loadc 1 #one\nhalt")).1.code = 0 := by
    decide +kernel
  have hlisting : Program.listing (Code.toProgram [.loadc 1, .halt])
      = Text.ofString "  loadc 1\n  halt\n" := by
    decide +kernel
  obtain ⟨hcheck, hrun⟩ := hkeeps (by decide) true hpasses
  refine ⟨after, hformat, ?_, hcheck true, ?_⟩
  · rw [hafter.contents, hlisting]
  · exact (hrun 9 (some "p.tasm") none true (hconfig (isTree_worldToFormat _) true)).1

end Command

end StackMachine
