import Mathlib.Data.List.Nodup
import ChatRoom.Core.Run
import ChatRoom.Base.AsyncLog

/-!
# Rolling the log

The files hold the lines that the thread has taken as long as every file gets a name of its
own. A name has the second in it, so a file that fills up in the second in which it was
created is emptied and its lines are lost.
-/

namespace ChatRoom.Base

open ChatRoom.Core

namespace CAsyncLog

/-- The files hold the lines taken, whole and in order, and each file had room for its last
line when that was written. -/
def Kept (s : CAsyncLog) : Prop :=
  ∃ groups : List (List Bytes), groups.flatten = s.taken ∧
    s.files.map LogFile.content = groups.map List.flatten ∧
      ∀ g ∈ groups, (g.dropLast.flatten.length : Int) < s.fileRollSize

/-- The steps that lose and repeat nothing: a new file has a new name, and a line is written
once, to a file. -/
def Allowed (localtime : Int → Tm) (s : CAsyncLog) : Event → Prop
  | .output _ => True
  | .uninit => True
  | .turn now fopen =>
    match s.position with
    | .top => s.NeedsFile → fopen = true →
        s.newFileName localtime now ∉ s.files.map LogFile.name
    | .wait => ∀ strLine ∈ s.listLinesToWrite.head?, s.strFileName ≠ [] ∧ WrittenOnce strLine
    | .done => True

/-! ## Files -/

private theorem updateFile_of_not_mem {name : Bytes} (change : Bytes → Bytes) {files : List LogFile}
    (h : name ∉ files.map LogFile.name) : updateFile name change files = files := by
  rw [updateFile]
  nth_rewrite 2 [← List.map_id files]
  apply List.map_congr_left
  intro f hf
  rw [if_neg (fun heq : f.name = name => h (heq ▸ List.mem_map_of_mem hf)), id]

private theorem updateFile_last {older : List LogFile} {cur : LogFile} (change : Bytes → Bytes)
    (h : ((older ++ [cur]).map LogFile.name).Nodup) :
    updateFile cur.name change (older ++ [cur]) = older ++ [⟨cur.name, change cur.content⟩] := by
  have hnot : cur.name ∉ older.map LogFile.name := by
    rw [List.map_append, List.map_singleton] at h
    intro hin
    exact (List.nodup_append.mp h).2.2 cur.name hin cur.name (List.mem_singleton.mpr rfl) rfl
  have hfront := updateFile_of_not_mem change hnot
  rw [updateFile] at hfront ⊢
  rw [List.map_append, hfront, List.map_singleton, if_pos rfl]

/-- The bytes that the files have together. -/
def totalSize (files : List LogFile) : Nat := (files.map LogFile.content).flatten.length

private theorem totalSize_cons (f : LogFile) (files : List LogFile) :
    totalSize (f :: files) = f.content.length + totalSize files := by
  rw [totalSize, List.map_cons, List.flatten_cons, List.length_append, totalSize]

private theorem totalSize_append (files files' : List LogFile) :
    totalSize (files ++ files') = totalSize files + totalSize files' := by
  rw [totalSize, List.map_append, List.flatten_append, List.length_append, totalSize, totalSize]

/-- Emptying a file that is not empty makes the files smaller. -/
theorem totalSize_truncate_lt {name : Bytes} {files : List LogFile}
    (hfull : ∀ f ∈ files, f.content ≠ []) (h : name ∈ files.map LogFile.name) :
    totalSize (updateFile name (fun _ => []) files) < totalSize files := by
  have hle : ∀ files : List LogFile,
      totalSize (updateFile name (fun _ => []) files) ≤ totalSize files := by
    intro files
    induction files with
    | nil => exact Nat.le_refl _
    | cons f files ih =>
      rw [updateFile] at ih ⊢
      rw [List.map_cons, totalSize_cons, totalSize_cons]
      split
      · exact Nat.add_le_add (Nat.zero_le _) ih
      · exact Nat.add_le_add_left ih _
  induction files with
  | nil => cases h
  | cons f files ih =>
    have htail := hle files
    rw [updateFile] at ih htail ⊢
    rw [List.map_cons, totalSize_cons, totalSize_cons]
    split
    · have hpos := List.length_pos_iff.mpr (hfull f List.mem_cons_self)
      rw [List.length_nil]
      omega
    · next hne =>
      rw [List.map_cons] at h
      have hin := (List.mem_cons.mp h).resolve_left (Ne.symm hne)
      exact Nat.add_lt_add_left (ih (fun f' hf' => hfull f' (List.mem_cons_of_mem _ hf')) hin) _

private theorem Kept.totalSize_eq {s : CAsyncLog} (h : Kept s) :
    totalSize s.files = s.taken.flatten.length := by
  obtain ⟨groups, htaken, hcontent, -⟩ := h
  rw [totalSize, hcontent, ← htaken, List.flatten_flatten]

/-! ## The invariant -/

/-- Nothing is written yet. -/
structure Fresh (s : CAsyncLog) : Prop where
  files : s.files = []
  handle : s.hLogFile = none
  taken : s.taken = []
  unnamed : s.position = Position.wait → s.strFileName = []

/-- The last file is open and not full. -/
structure Writing (s : CAsyncLog) (older : List LogFile) (cur : LogFile)
    (groups : List (List Bytes)) (g : List Bytes) : Prop where
  named : s.strFileName ≠ []
  files : s.files = older ++ [cur]
  handle : s.hLogFile = some cur.name
  names : ((older ++ [cur]).map LogFile.name).Nodup
  contents : older.map LogFile.content = groups.map List.flatten
  content : cur.content = g.flatten
  taken : s.taken = groups.flatten ++ g
  full : ∀ f ∈ older, f.content ≠ []
  sizes : ∀ g' ∈ groups ++ [g], (g'.dropLast.flatten.length : Int) < s.fileRollSize
  size : s.currentWrittenSize = cur.content.length
  room : s.position = Position.wait → s.currentWrittenSize < s.fileRollSize

/-- What every allowed step keeps. -/
def Inv (s : CAsyncLog) : Prop :=
  0 < s.fileRollSize ∧
    ((s.position = Position.done ∧ Kept s) ∨
      (s.position ≠ Position.done ∧ (Fresh s ∨ ∃ older cur groups g, Writing s older cur groups g)))

private theorem Fresh.kept {s : CAsyncLog} (h : Fresh s) : Kept s := by
  refine ⟨[], ?_, ?_, ?_⟩
  · rw [h.taken, List.flatten_nil]
  · rw [h.files, List.map_nil, List.map_nil]
  · intro g hg
    cases hg

private theorem Writing.kept {s : CAsyncLog} {older : List LogFile} {cur : LogFile}
    {groups : List (List Bytes)} {g : List Bytes} (h : Writing s older cur groups g) : Kept s := by
  refine ⟨groups ++ [g], ?_, ?_, h.sizes⟩
  · rw [List.flatten_append, List.flatten_singleton, h.taken]
  · rw [h.files, List.map_append, List.map_append, h.contents, List.map_singleton,
      List.map_singleton, h.content]

private theorem Inv.kept {s : CAsyncLog} (h : Inv s) : Kept s := by
  rcases h.2 with ⟨-, hkept⟩ | ⟨-, hfresh | ⟨older, cur, groups, g, hwriting⟩⟩
  · exact hkept
  · exact hfresh.kept
  · exact hwriting.kept

/-- While the thread runs, either nothing is written or a file is open. -/
theorem Inv.running {s : CAsyncLog} (h : Inv s) (hrun : s.position ≠ Position.done) :
    Fresh s ∨ ∃ older cur groups g, Writing s older cur groups g := by
  rcases h.2 with ⟨hdone, -⟩ | ⟨-, hcases⟩
  · exact absurd hdone hrun
  · exact hcases

/-- A file that is due to be followed is not empty. -/
theorem Writing.full_of_needsFile {s : CAsyncLog} {older : List LogFile} {cur : LogFile}
    {groups : List (List Bytes)} {g : List Bytes} (h : Writing s older cur groups g)
    (hroll : 0 < s.fileRollSize) (hneeds : s.NeedsFile) : ∀ f ∈ s.files, f.content ≠ [] := by
  have hsize : s.currentWrittenSize ≥ s.fileRollSize := by
    apply hneeds.2.resolve_left
    rw [h.handle]
    exact Option.some_ne_none _
  rw [h.size] at hsize
  intro f hf
  rw [h.files] at hf
  rcases List.mem_append.mp hf with hf | hf
  · exact h.full f hf
  · rw [List.mem_singleton.mp hf]
    apply List.length_pos_iff.mp
    omega

/-! ## A new file -/

section NewFile

variable {s : CAsyncLog} {localtime : Int → Tm} {now : Int}

private theorem checkFile_created (hneeds : s.NeedsFile) :
    s.checkFile localtime now true =
      { s with
        currentWrittenSize := 0, hLogFile := some (s.newFileName localtime now),
        files := openTruncated (s.newFileName localtime now) s.files,
        position := Position.wait } := by
  rw [checkFile, if_pos hneeds]
  rfl

private theorem checkFile_failed (hneeds : s.NeedsFile) :
    s.checkFile localtime now false =
      { s with currentWrittenSize := 0, hLogFile := none, position := Position.done } := by
  rw [checkFile, if_pos hneeds]
  rfl

private theorem Kept.checkFile_failed (h : Kept s) (hneeds : s.NeedsFile) :
    Kept (s.checkFile localtime now false) := by
  rw [CAsyncLog.checkFile_failed hneeds]
  exact h

/-- The first file is created empty. -/
theorem Fresh.checkFile (h : Fresh s) (hroll : 0 < s.fileRollSize) (hneeds : s.NeedsFile) :
    Writing (s.checkFile localtime now true) [] ⟨s.newFileName localtime now, []⟩ [] [] := by
  rw [checkFile_created hneeds]
  have hopen : openTruncated (s.newFileName localtime now) s.files =
      [⟨s.newFileName localtime now, []⟩] := by
    rw [openTruncated, h.files, if_neg (by rw [List.map_nil]; exact List.not_mem_nil),
      List.nil_append]
  refine ⟨hneeds.1, hopen, rfl, List.nodup_singleton _, rfl, rfl, ?_, ?_, ?_, rfl, fun _ => hroll⟩
  · exact h.taken
  · intro f hf
    cases hf
  · intro g hg
    rw [List.mem_singleton.mp hg]
    exact hroll

/-- A new name closes the current group of lines and begins an empty one. -/
theorem Writing.checkFile {older : List LogFile} {cur : LogFile} {groups : List (List Bytes)}
    {g : List Bytes} (h : Writing s older cur groups g) (hroll : 0 < s.fileRollSize)
    (hneeds : s.NeedsFile) (hname : s.newFileName localtime now ∉ s.files.map LogFile.name) :
    Writing (s.checkFile localtime now true) (older ++ [cur])
      ⟨s.newFileName localtime now, []⟩ (groups ++ [g]) [] := by
  have hfull := h.full_of_needsFile hroll hneeds
  rw [checkFile_created hneeds, openTruncated, if_neg hname]
  rw [h.files] at hname hfull
  refine ⟨hneeds.1, ?_, rfl, ?_, ?_, rfl, ?_, hfull, ?_, rfl, fun _ => hroll⟩
  · rw [h.files]
  · rw [List.map_append, List.map_singleton]
    exact List.nodup_append.mpr ⟨h.names, List.nodup_singleton _, by
      rintro n hn n' hn' rfl
      rw [List.mem_singleton.mp hn'] at hn
      exact hname hn⟩
  · rw [List.map_append, List.map_append, h.contents, List.map_singleton, List.map_singleton,
      h.content]
  · rw [List.flatten_append, List.flatten_singleton, List.append_nil]
    exact h.taken
  · intro g' hg'
    rcases List.mem_append.mp hg' with hg' | hg'
    · exact h.sizes g' hg'
    · rw [List.mem_singleton.mp hg']
      exact hroll

/-- Where the name is taken, a file is emptied and its lines are lost. -/
theorem Writing.checkFile_lost {older : List LogFile} {cur : LogFile}
    {groups : List (List Bytes)} {g : List Bytes} (h : Writing s older cur groups g)
    (hroll : 0 < s.fileRollSize) (hneeds : s.NeedsFile)
    (hname : s.newFileName localtime now ∈ s.files.map LogFile.name) :
    ¬ Kept (s.checkFile localtime now true) := by
  intro hkept
  have hbefore := h.kept.totalSize_eq
  have hafter := hkept.totalSize_eq
  have hless := totalSize_truncate_lt (h.full_of_needsFile hroll hneeds) hname
  rw [checkFile_created hneeds] at hafter
  change totalSize (openTruncated _ s.files) = s.taken.flatten.length at hafter
  rw [openTruncated, if_pos hname] at hafter
  omega

end NewFile

/-! ## A line -/

section Line

variable {s : CAsyncLog} {strLine : Bytes} {rest : List Bytes}

private theorem Writing.writeLine_eq {older : List LogFile} {cur : LogFile}
    {groups : List (List Bytes)}
    {g : List Bytes} (h : Writing s older cur groups g) :
    s.writeLine strLine rest =
      { s with
        listLinesToWrite := rest, taken := s.taken ++ [strLine],
        files := older ++ [⟨cur.name, cur.content ++ (writtenBytes strLine).2⟩],
        currentWrittenSize := if (writtenBytes strLine).1 then
          s.currentWrittenSize + strLine.length else s.currentWrittenSize,
        position := if (writtenBytes strLine).1 then Position.top else Position.done } := by
  have hfile : s.hLogFile.elim s.files (fun name =>
      updateFile name (· ++ (writtenBytes strLine).2) s.files) =
        older ++ [⟨cur.name, cur.content ++ (writtenBytes strLine).2⟩] := by
    rw [h.handle, h.files, Option.elim_some]
    exact updateFile_last (· ++ (writtenBytes strLine).2) h.names
  rw [writeLine]
  simp only [if_neg h.named, writeToFile, hfile]
  by_cases hok : (writtenBytes strLine).1 = true
  · simp only [if_pos hok]
  · simp only [if_neg hok]

/-- A line that is written once belongs to the group of the file that is open. -/
theorem Writing.sizes_concat {older : List LogFile} {cur : LogFile} {groups : List (List Bytes)}
    {g : List Bytes} (h : Writing s older cur groups g) (hwait : s.position = Position.wait) :
    ∀ g' ∈ groups ++ [g ++ [strLine]], (g'.dropLast.flatten.length : Int) < s.fileRollSize := by
  intro g' hg'
  rcases List.mem_append.mp hg' with hg' | hg'
  · exact h.sizes g' (List.mem_append_left _ hg')
  · have hroom := h.room hwait
    rw [h.size, h.content] at hroom
    rw [List.mem_singleton.mp hg', List.dropLast_concat]
    exact hroom

/-- A line that is written whole goes to the end of the current file and of its group. -/
theorem Writing.writeLine {older : List LogFile} {cur : LogFile} {groups : List (List Bytes)}
    {g : List Bytes} (h : Writing s older cur groups g) (hwait : s.position = Position.wait)
    (honce : WrittenOnce strLine) (hok : (writtenBytes strLine).1 = true) :
    Writing (s.writeLine strLine rest) older ⟨cur.name, cur.content ++ strLine⟩ groups
      (g ++ [strLine]) := by
  rw [h.writeLine_eq, writtenBytes_once honce]
  simp only [if_pos hok]
  refine ⟨h.named, rfl, h.handle, ?_, h.contents, ?_, ?_, h.full, h.sizes_concat hwait, ?_, ?_⟩
  · have hnames := h.names
    rw [List.map_append, List.map_singleton] at hnames ⊢
    exact hnames
  · rw [h.content, List.flatten_append, List.flatten_singleton]
  · rw [h.taken, List.append_assoc]
  · rw [h.size, List.length_append, Int.natCast_add]
  · intro htop
    cases htop

private theorem Writing.writeLine_kept {older : List LogFile} {cur : LogFile}
    {groups : List (List Bytes)}
    {g : List Bytes} (h : Writing s older cur groups g) (hwait : s.position = Position.wait)
    (honce : WrittenOnce strLine) : Kept (s.writeLine strLine rest) := by
  rw [h.writeLine_eq, writtenBytes_once honce]
  refine ⟨groups ++ [g ++ [strLine]], ?_, ?_, h.sizes_concat hwait⟩
  · rw [List.flatten_append, List.flatten_singleton, h.taken, List.append_assoc]
  · rw [List.map_append, List.map_append, h.contents, List.map_singleton, List.map_singleton,
      h.content, List.flatten_append, List.flatten_singleton]

/-- Where a part of the line is written again, the files hold too much. -/
theorem Writing.writeLine_repeated {older : List LogFile} {cur : LogFile}
    {groups : List (List Bytes)} {g : List Bytes} (h : Writing s older cur groups g)
    (htwice : ¬ WrittenOnce strLine) : ¬ Kept (s.writeLine strLine rest) := by
  intro hkept
  have hbefore := h.kept.totalSize_eq
  have hafter := hkept.totalSize_eq
  have hmore := length_writtenBytes_twice htwice
  rw [h.files, totalSize_append, totalSize_cons] at hbefore
  rw [h.writeLine_eq] at hafter
  simp only [totalSize_append, totalSize_cons, List.flatten_append, List.flatten_singleton,
    List.length_append] at hafter
  omega

/-- Without a log file a line is lost to the files. -/
theorem Fresh.writeLine_lost (h : Fresh s) (hname : s.strFileName = []) :
    ¬ Kept (s.writeLine strLine rest) := by
  rintro ⟨groups, htaken, hcontent, -⟩
  rw [CAsyncLog.writeLine] at htaken hcontent
  simp only [if_pos hname, h.files, h.taken, List.map_nil, List.nil_append] at htaken hcontent
  rw [List.map_eq_nil_iff.mp hcontent.symm] at htaken
  cases htaken

end Line

/-! ## One step -/

section Step

variable {s : CAsyncLog} {localtime : Int → Tm}

private theorem inv_init (fileName pid : Bytes) {rollSize : Int} (hroll : 0 < rollSize) :
    Inv (init fileName pid rollSize) := by
  refine ⟨hroll, Or.inr ⟨Position.noConfusion, Or.inl ⟨rfl, rfl, rfl, ?_⟩⟩⟩
  intro hwait
  cases hwait

/-- The list of lines and the exit flag are no part of it. -/
theorem Inv.frame (h : Inv s) (lines : List Bytes) (exit : Bool) :
    Inv { s with listLinesToWrite := lines, exit := exit } := by
  rcases h with ⟨hroll, hcases⟩
  refine ⟨hroll, ?_⟩
  rcases hcases with hdone | ⟨hrun, hfresh | ⟨older, cur, groups, g, hwriting⟩⟩
  · exact Or.inl hdone
  · exact Or.inr ⟨hrun, Or.inl { hfresh with }⟩
  · exact Or.inr ⟨hrun, Or.inr ⟨older, cur, groups, g, { hwriting with }⟩⟩

private theorem fileRollSize_checkFile (now : Int) (fopen : Bool) :
    (s.checkFile localtime now fopen).fileRollSize = s.fileRollSize := by
  rw [CAsyncLog.checkFile]
  split
  · cases fopen <;> rfl
  · rfl

private theorem fileRollSize_writeLine (strLine : Bytes) (rest : List Bytes) :
    (s.writeLine strLine rest).fileRollSize = s.fileRollSize := by
  rw [CAsyncLog.writeLine]
  dsimp only
  split
  · rfl
  · split <;> rfl

/-- Where no file is due, the one that is open has room, or there is none to open. -/
theorem Inv.checkFile_skip (h : Inv s) (htop : s.position = Position.top) (hneeds : ¬ s.NeedsFile) :
    Inv { s with position := Position.wait } := by
  have hrun : s.position ≠ Position.done := by
    rw [htop]
    exact Position.noConfusion
  rcases h.running hrun with hfresh | ⟨older, cur, groups, g, hwriting⟩
  · refine ⟨h.1, Or.inr ⟨Position.noConfusion, Or.inl ?_⟩⟩
    refine ⟨hfresh.files, hfresh.handle, hfresh.taken, fun _ => ?_⟩
    by_contra hname
    exact hneeds ⟨hname, Or.inl hfresh.handle⟩
  · refine ⟨h.1, Or.inr ⟨Position.noConfusion, Or.inr ⟨older, cur, groups, g, ?_⟩⟩⟩
    refine { hwriting with room := fun _ => ?_ }
    by_contra hfull
    exact hneeds ⟨hwriting.named, Or.inr (Int.not_lt.mp hfull)⟩

/-- The invariant is kept when a new file has a name of its own. -/
theorem Inv.checkFile (h : Inv s) (htop : s.position = Position.top) {now : Int} {fopen : Bool}
    (hname : s.NeedsFile → fopen = true →
      s.newFileName localtime now ∉ s.files.map LogFile.name) :
    Inv (s.checkFile localtime now fopen) := by
  by_cases hneeds : s.NeedsFile
  · have hroll : 0 < (s.checkFile localtime now fopen).fileRollSize := by
      rw [fileRollSize_checkFile]
      exact h.1
    cases fopen with
    | false =>
      refine ⟨hroll, Or.inl ⟨?_, h.kept.checkFile_failed hneeds⟩⟩
      rw [checkFile_failed hneeds]
    | true =>
      have hwait : (s.checkFile localtime now true).position ≠ Position.done := by
        rw [checkFile_created hneeds]
        exact Position.noConfusion
      rcases h.running (by rw [htop]; exact Position.noConfusion) with
        hfresh | ⟨older, cur, groups, g, hwriting⟩
      · exact ⟨hroll, Or.inr ⟨hwait, Or.inr ⟨_, _, _, _, hfresh.checkFile h.1 hneeds⟩⟩⟩
      · have hnew := hwriting.checkFile h.1 hneeds (hname hneeds rfl)
        exact ⟨hroll, Or.inr ⟨hwait, Or.inr ⟨_, _, _, _, hnew⟩⟩⟩
  · rw [CAsyncLog.checkFile, if_neg hneeds]
    exact h.checkFile_skip htop hneeds

/-- The invariant is kept by a line that is written once. -/
theorem Inv.writeLine (h : Inv s) (hwait : s.position = Position.wait) {strLine : Bytes}
    {rest : List Bytes} (hname : s.strFileName ≠ []) (honce : WrittenOnce strLine) :
    Inv (s.writeLine strLine rest) := by
  have hroll : 0 < (s.writeLine strLine rest).fileRollSize := by
    rw [fileRollSize_writeLine]
    exact h.1
  rcases h.running (by rw [hwait]; exact Position.noConfusion) with
    hfresh | ⟨older, cur, groups, g, hwriting⟩
  · exact absurd (hfresh.unnamed hwait) hname
  · have hnext : s.writeLine strLine rest = _ := hwriting.writeLine_eq
    by_cases hok : (writtenBytes strLine).1 = true
    · refine ⟨hroll, Or.inr ⟨?_, Or.inr ⟨_, _, _, _, hwriting.writeLine hwait honce hok⟩⟩⟩
      rw [hnext]
      simp only [if_pos hok]
      exact Position.noConfusion
    · refine ⟨hroll, Or.inl ⟨?_, hwriting.writeLine_kept hwait honce⟩⟩
      rw [hnext]
      simp only [if_neg hok]

/-- The invariant is kept by every allowed turn of the write thread. -/
theorem Inv.writeThreadProc (h : Inv s) {now : Int} {fopen : Bool}
    (hallowed : Allowed localtime s (.turn now fopen)) :
    Inv (s.writeThreadProc localtime now fopen) := by
  rw [Allowed] at hallowed
  rw [CAsyncLog.writeThreadProc]
  cases hpos : s.position with
  | top =>
    simp only [hpos] at hallowed ⊢
    exact h.checkFile hpos hallowed
  | wait =>
    simp only [hpos] at hallowed ⊢
    cases hlines : s.listLinesToWrite with
    | nil =>
      by_cases hexit : s.exit = true
      · simp only [if_pos hexit]
        exact ⟨h.1, Or.inl ⟨rfl, h.kept⟩⟩
      · simp only [if_neg hexit]
        exact h
    | cons strLine rest =>
      rw [hlines] at hallowed
      obtain ⟨hname, honce⟩ := hallowed strLine rfl
      exact h.writeLine hpos hname honce
  | done => exact h

/-- What is not allowed loses or repeats something at once. -/
theorem Inv.allowed_of_kept (h : Inv s) {now : Int} {fopen : Bool}
    (hkept : Kept (s.writeThreadProc localtime now fopen)) :
    Allowed localtime s (.turn now fopen) := by
  rw [Allowed]
  rw [CAsyncLog.writeThreadProc] at hkept
  cases hpos : s.position with
  | top =>
    simp only [hpos] at hkept ⊢
    rintro hneeds rfl hname
    rcases h.running (by rw [hpos]; exact Position.noConfusion) with
      hfresh | ⟨older, cur, groups, g, hwriting⟩
    · rw [hfresh.files] at hname
      cases hname
    · exact hwriting.checkFile_lost h.1 hneeds hname hkept
  | wait =>
    simp only [hpos] at hkept ⊢
    intro strLine hhead
    obtain ⟨rest, hlines⟩ := List.head?_eq_some_iff.mp hhead
    simp only [hlines] at hkept
    rcases h.running (by rw [hpos]; exact Position.noConfusion) with
      hfresh | ⟨older, cur, groups, g, hwriting⟩
    · exact absurd hkept (hfresh.writeLine_lost (hfresh.unnamed hpos))
    · refine ⟨hwriting.named, ?_⟩
      by_contra htwice
      exact hwriting.writeLine_repeated htwice hkept
  | done => trivial

private theorem Inv.step (h : Inv s) {e : Event} (hallowed : Allowed localtime s e) :
    Inv (s.step localtime e) := by
  cases e with
  | output strLine => exact h.frame _ s.exit
  | uninit => exact h.frame s.listLinesToWrite true
  | turn now fopen => exact h.writeThreadProc hallowed

end Step

/-! ## Whole runs -/

/-- The line that an event puts into the list. -/
def outputLine : Event → Option Bytes
  | .output strLine => some strLine
  | .uninit => none
  | .turn _ _ => none

private theorem taken_writeThreadProc (localtime : Int → Tm) (s : CAsyncLog) (now : Int)
    (fopen : Bool) :
    (s.writeThreadProc localtime now fopen).taken ++
        (s.writeThreadProc localtime now fopen).listLinesToWrite =
      s.taken ++ s.listLinesToWrite := by
  rw [writeThreadProc]
  split
  · rw [checkFile]
    split
    · cases fopen <;> rfl
    · rfl
  · split
    · split <;> rfl
    · next strLine rest hlines =>
      have htaken : (s.writeLine strLine rest).taken ++
          (s.writeLine strLine rest).listLinesToWrite = s.taken ++ [strLine] ++ rest := by
        rw [writeLine]
        dsimp only
        split
        · rfl
        · split <;> rfl
      rw [htaken, hlines, List.append_assoc, List.singleton_append]
  · rfl

/-- Every line that is output is taken or still in the list, in order. -/
theorem taken_append_list (localtime : Int → Tm) (s : CAsyncLog) (events : List Event) :
    (events.foldl (step localtime) s).taken ++ (events.foldl (step localtime) s).listLinesToWrite =
      s.taken ++ s.listLinesToWrite ++ events.filterMap outputLine := by
  induction events generalizing s with
  | nil => rw [List.filterMap_nil, List.append_nil, List.foldl_nil]
  | cons e events ih =>
    rw [List.foldl_cons, ih, List.filterMap_cons]
    cases e with
    | output strLine =>
      simp only [step, outputLine, List.append_assoc, List.singleton_append]
    | uninit => rfl
    | turn now fopen =>
      rw [step, taken_writeThreadProc]
      rfl

/-- In every state of a run the files hold the lines taken, exactly when every step of the run
is allowed: each new file has a new name and each line is written once. -/
theorem kept_iff (localtime : Int → Tm) (fileName pid : Bytes) {rollSize : Int}
    (hroll : 0 < rollSize) (events : List Event) :
    (∀ before after, events = before ++ after →
        Kept (before.foldl (step localtime) (init fileName pid rollSize))) ↔
      ∀ s e, Visits (step localtime) (init fileName pid rollSize) events s e →
        Allowed localtime s e := by
  apply forall_prefix_iff_of_visits (inv_init fileName pid hroll) fun s => Inv.kept
  · intro s e hinv hallowed
    exact hinv.step hallowed
  · intro s e hinv hkept
    cases e with
    | output strLine => trivial
    | uninit => trivial
    | turn now fopen => exact hinv.allowed_of_kept hkept

/-- The first line is in a file with the name of the second before it was taken. -/
theorem writing_first_line (localtime : Int → Tm) (fileName pid : Bytes) (rollSize now : Int)
    (strLine : Bytes) (hname : fileName ≠ []) (hroll : 0 < rollSize) (honce : WrittenOnce strLine)
    (hok : (writtenBytes strLine).1 = true) :
    Writing ([Event.output strLine, .turn now true, .turn now true].foldl (step localtime)
        (init fileName pid rollSize)) []
      ⟨(init fileName pid rollSize).newFileName localtime now, strLine⟩ [] [strLine] := by
  let s : CAsyncLog := { init fileName pid rollSize with listLinesToWrite := [strLine] }
  have hneeds : s.NeedsFile := ⟨hname, Or.inl rfl⟩
  have hfresh : Fresh s := ⟨rfl, rfl, rfl, fun hwait => by cases hwait⟩
  have hopen : Writing (s.checkFile localtime now true) [] _ [] [] := hfresh.checkFile hroll hneeds
  have hstate : s.checkFile localtime now true = _ := checkFile_created hneeds
  have hline : Writing ((s.checkFile localtime now true).writeLine strLine []) _ _ _ _ :=
    hopen.writeLine (by rw [hstate]) honce hok
  rw [hstate] at hline
  change Writing ((s.checkFile localtime now true).writeThreadProc localtime now true) _ _ _ _
  rw [hstate]
  exact hline

/-- Local time in the first minute of 1970. -/
def firstMinute (t : Int) : Tm := ⟨70, 0, 1, 0, 0, t.toNat⟩

private theorem firstMinute_one_ne (s : CAsyncLog) :
    s.newFileName firstMinute 1 ≠ s.newFileName firstMinute 0 := by
  intro heq
  have htime := List.append_cancel_left (List.append_cancel_right (List.append_cancel_right
    (List.append_cancel_right heq)))
  have hsec : twoDigits 1 = twoDigits 0 := List.append_cancel_left htime
  rw [twoDigits, twoDigits, Decimal.digits_of_lt (by decide), Decimal.digits_of_lt (by decide)]
    at hsec
  exact absurd hsec (by decide)

/-- A line fills a file, and a second later the next one is created. -/
theorem kept_next_second :
    Kept ([Event.output [97, 10], .turn 0 true, .turn 0 true, .turn 1 true].foldl
      (step firstMinute) (init [108] [49] 2)) := by
  have hfirst := writing_first_line firstMinute [108] [49] 2 0 [97, 10] (by decide) (by decide)
    (Or.inl (by decide)) (by decide)
  simp only [List.foldl_cons, List.foldl_nil] at hfirst
  refine (kept_iff firstMinute [108] [49] (by decide) _).mpr ?_ _ [] (List.append_nil _).symm
  intro s e h
  rcases visits_cons.mp h with ⟨rfl, rfl⟩ | h
  · trivial
  rcases visits_cons.mp h with ⟨rfl, rfl⟩ | h
  · intro _ _ hname
    cases hname
  rcases visits_cons.mp h with ⟨rfl, rfl⟩ | h
  · intro strLine hline
    cases hline
    exact ⟨by decide, Or.inl (by decide)⟩
  rcases visits_cons.mp h with ⟨rfl, rfl⟩ | h
  · intro _ _ hname
    rw [hfirst.files] at hname
    exact firstMinute_one_ne _ (List.mem_singleton.mp hname)
  · exact absurd h (not_visits_nil _ _ _ _)

/-- In the same second the file is emptied, and the line is lost. -/
theorem same_second_lost :
    ¬ Kept ([Event.output [97, 10], .turn 0 true, .turn 0 true, .turn 0 true].foldl
      (step firstMinute) (init [108] [49] 2)) := by
  have hfirst := writing_first_line firstMinute [108] [49] 2 0 [97, 10] (by decide) (by decide)
    (Or.inl (by decide)) (by decide)
  apply hfirst.checkFile_lost (by decide)
  · exact ⟨hfirst.named, Or.inr (by rw [hfirst.size]; decide)⟩
  · rw [hfirst.files]
    exact List.mem_singleton.mpr rfl

end CAsyncLog

end ChatRoom.Base
