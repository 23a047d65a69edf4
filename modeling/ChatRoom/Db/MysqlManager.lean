import Mathlib.Data.List.Forall2
import ChatRoom.Core.Atoll
import ChatRoom.Core.Lines
import ChatRoom.Core.Traced
import ChatRoom.Db.DatabaseMysql

/-!
# CMysqlManager

`initData` of `mysqlmgr/MysqlManager.cpp` reads a script line by line and executes what it
has collected after each line that ends with a semicolon. It looks at the last byte of a
line that may be empty, joins lines without their line breaks, and drops what follows the
last such line. So a script is executed as it is written exactly when it has no empty line,
white space at each line break inside a statement, and nothing but white space behind the
last statement.
-/

namespace ChatRoom.Db

open ChatRoom.Core

/-! ## initData -/

/-- A call of `initData`: its result, the statements it executes, and what is left in `query`. -/
structure InitRun where
  result : Bool
  statements : List Bytes
  query : Bytes

/-- `line.back()`, with the string it is called on. -/
def back (line : Bytes) : Traced Bytes UInt8 := ⟨line.getLast?.getD 0, [line]⟩

namespace CMysqlManager

/-- The loop of `initData`, with the answers of the client library to each `execute`. -/
def initLines (db : CDatabaseMysql) (answers : Nat → Outcomes) :
    List Bytes → Bytes → Traced Bytes InitRun
  | [], query => Traced.pure ⟨true, [], query⟩
  | line :: rest, query =>
    (back line).bind fun c =>
      let query := query ++ line
      if c = 59 then
        let executed := db.execute (answers 0)
        if executed.2 then
          (initLines executed.1 (fun i => answers (i + 1)) rest []).map fun run =>
            { run with statements := cstr query :: run.statements }
        else Traced.pure ⟨false, [cstr query], query⟩
      else initLines db answers rest query

/-- `initData` on the content of a file, `none` for one that cannot be opened. -/
def initData (db : CDatabaseMysql) (answers : Nat → Outcomes) : Option Bytes → Traced Bytes InitRun
  | none => Traced.pure ⟨false, [], []⟩
  | some content => initLines db answers (lines content) []

end CMysqlManager

/-! ## The statements of a script -/

/-- The lines cut after each one that ends with a semicolon, and the lines behind the last cut. -/
def cutGroups : List Bytes → List (List Bytes) × List Bytes
  | [] => ([], [])
  | line :: rest =>
    if line.getLast? = some 59 then ([line] :: (cutGroups rest).1, (cutGroups rest).2)
    else
      match (cutGroups rest).1 with
      | [] => ([], line :: (cutGroups rest).2)
      | g :: groups => ((line :: g) :: groups, (cutGroups rest).2)

/-- White space stands between two texts, or at the end of the first or the start of the second. -/
def Parted (line text : Bytes) : Prop :=
  (∃ c ∈ line.getLast?, isSpace c = true) ∨ ∃ c ∈ text.head?, isSpace c = true

/-- The text of some lines, with nothing but white space put between them and white space at
each line break. -/
inductive Renders : List Bytes → Bytes → Prop
  | last (line : Bytes) : Renders [line] line
  | cons {rest : List Bytes} {text : Bytes} (line gap : Bytes) :
      Renders rest text → (∀ c ∈ gap, isSpace c = true) → gap ≠ [] ∨ Parted line text →
        Renders (line :: rest) (line ++ gap ++ text)

/-- There is white space at each line break already. -/
def Separated : List Bytes → Prop
  | [] => True
  | [_] => True
  | line :: next :: rest => Parted line (next :: rest).flatten ∧ Separated (next :: rest)

/-- The script is executed as it is written. -/
def Faithful (content : Bytes) (run : Traced Bytes InitRun) : Prop :=
  run.All (· ≠ []) ∧ List.Forall₂ Renders (cutGroups (lines content)).1 run.value.statements ∧
    (run.value.result = true → ∀ c ∈ run.value.query, isSpace c = true)

private theorem Renders.length_le {g : List Bytes} {text : Bytes} (h : Renders g text) :
    g.flatten.length ≤ text.length := by
  induction h with
  | last line => simp only [List.flatten_singleton, Nat.le_refl]
  | cons line gap _ _ _ ih =>
    rw [List.flatten_cons, List.length_append, List.length_append, List.length_append]
    omega

/-- Lines that are joined without a gap have white space at their ends. -/
theorem Renders.separated {g : List Bytes} {text : Bytes} (h : Renders g text)
    (hlen : text.length ≤ g.flatten.length) : text = g.flatten ∧ Separated g := by
  induction h with
  | last line => exact ⟨List.flatten_singleton.symm, trivial⟩
  | @cons rest text line gap hrest hgap hparted ih =>
    have hshort := hrest.length_le
    rw [List.flatten_cons, List.length_append, List.length_append, List.length_append] at hlen
    have hnone : gap = [] := List.length_eq_zero_iff.mp (by omega)
    obtain ⟨htext, hsep⟩ := ih (by omega)
    have hjoin := hparted.resolve_left (fun hne => hne hnone)
    refine ⟨by rw [hnone, List.append_nil, List.flatten_cons, htext], ?_⟩
    rw [htext] at hjoin
    cases rest with
    | nil => trivial
    | cons next rest => exact ⟨hjoin, hsep⟩

private theorem Separated.renders {g : List Bytes} (h : Separated g) (hne : g ≠ []) :
    Renders g g.flatten := by
  induction g with
  | nil => exact absurd rfl hne
  | cons line rest ih =>
    cases rest with
    | nil =>
      rw [List.flatten_singleton]
      exact Renders.last line
    | cons next rest =>
      have hrest := ih h.2 (List.cons_ne_nil _ _)
      have hline := Renders.cons line [] hrest (fun c hc => by cases hc) (Or.inr h.1)
      rw [List.append_nil] at hline
      exact hline

/-- The joined lines, as a C string, are the text of the lines only if nothing is to be put
between them and nothing is cut off. -/
theorem renders_cstr_iff {g : List Bytes} (hne : g ≠ []) :
    Renders g (cstr g.flatten) ↔ Separated g ∧ 0 ∉ g.flatten := by
  constructor
  · intro h
    exact ⟨(h.separated (length_cstr_le _)).2, not_mem_of_length_cstr h.length_le⟩
  · rintro ⟨hsep, hnul⟩
    rw [cstr_of_not_mem hnul]
    exact hsep.renders hne

private theorem ne_nil_of_mem_cutGroups {ls : List Bytes} {g : List Bytes}
    (h : g ∈ (cutGroups ls).1) :
    g ≠ [] := by
  induction ls generalizing g with
  | nil => cases h
  | cons line rest ih =>
    rw [cutGroups] at h
    split at h
    · rcases List.mem_cons.mp h with rfl | h
      · exact List.cons_ne_nil _ _
      · exact ih h
    · cases hrest : (cutGroups rest).1 with
      | nil =>
        rw [hrest] at h
        cases h
      | cons g' groups =>
        simp only [hrest] at h ih
        rcases List.mem_cons.mp h with rfl | h
        · exact List.cons_ne_nil _ _
        · exact ih (List.mem_cons_of_mem _ h)

/-! ## What is executed -/

section Succeeding

variable {db : CDatabaseMysql} {answers : Nat → Outcomes}

/-- A statement without an error keeps the handle. -/
theorem execute_succeeds {o : Outcomes} (hconn : db.mMysql.isSome = true) (hok : o.error = none) :
    (db.execute o).2 = true ∧ (db.execute o).1.mMysql.isSome = true := by
  obtain ⟨h, hh⟩ := Option.isSome_iff_exists.mp hconn
  simp only [CDatabaseMysql.execute, CDatabaseMysql.executeBy, hok, CDatabaseMysql.pass, hh,
    Option.isSome_some, if_true, and_self]

/-- The part of the loop behind a line that ends with a semicolon. -/
theorem initLines_closed (hconn : db.mMysql.isSome = true) (hok : ∀ i, (answers i).error = none)
    {line : Bytes} (hline : line.getLast? = some 59) (rest : List Bytes) (query : Bytes) :
    CMysqlManager.initLines db answers (line :: rest) query =
      (back line).bind fun _ =>
        (CMysqlManager.initLines (db.execute (answers 0)).1 (fun i => answers (i + 1)) rest []).map
          fun run => { run with statements := cstr (query ++ line) :: run.statements } := by
  have hback : (back line).value = 59 := by rw [back, hline, Option.getD_some]
  rw [CMysqlManager.initLines, Traced.bind, Traced.bind, hback]
  simp only [if_true, (execute_succeeds hconn (hok 0)).1]

/-- A line without a semicolon at its end is put down for the statement. -/
theorem initLines_open {line : Bytes} (hline : line.getLast? ≠ some 59) (rest : List Bytes)
    (query : Bytes) :
    CMysqlManager.initLines db answers (line :: rest) query =
      (back line).bind fun _ => CMysqlManager.initLines db answers rest (query ++ line) := by
  have hback : (back line).value ≠ 59 := by
    rw [back]
    cases hlast : line.getLast? with
    | none => exact (by decide : (0 : UInt8) ≠ 59)
    | some c =>
      rw [hlast] at hline
      exact fun heq => hline (congrArg some heq)
  rw [CMysqlManager.initLines, Traced.bind, Traced.bind]
  simp only [if_neg hback]

/-- `back()` is called on every line. -/
theorem accesses_initLines (hconn : db.mMysql.isSome = true)
    (hok : ∀ i, (answers i).error = none) (ls : List Bytes) (query : Bytes) :
    (CMysqlManager.initLines db answers ls query).accesses = ls := by
  induction ls generalizing db answers query with
  | nil => rfl
  | cons line rest ih =>
    by_cases hline : line.getLast? = some 59
    · rw [initLines_closed hconn hok hline]
      exact congrArg (line :: ·)
        (ih (execute_succeeds hconn (hok 0)).2 (fun i => hok (i + 1)) [])
    · rw [initLines_open hline]
      exact congrArg (line :: ·) (ih hconn hok (query ++ line))

/-- The groups are executed, each as the C string of its joined lines; what was in `query` goes
in front of the first. -/
theorem value_initLines (hconn : db.mMysql.isSome = true) (hok : ∀ i, (answers i).error = none)
    (ls : List Bytes) (query : Bytes) :
    (CMysqlManager.initLines db answers ls query).value =
      match (cutGroups ls).1 with
      | [] => ⟨true, [], query ++ (cutGroups ls).2.flatten⟩
      | g :: groups => ⟨true, cstr (query ++ g.flatten) :: groups.map fun g => cstr g.flatten,
          (cutGroups ls).2.flatten⟩ := by
  induction ls generalizing db answers query with
  | nil =>
    simp only [CMysqlManager.initLines, cutGroups, List.flatten_nil, List.append_nil]
    rfl
  | cons line rest ih =>
    rw [cutGroups]
    by_cases hline : line.getLast? = some 59
    · rw [initLines_closed hconn hok hline, Traced.bind_value, Traced.map_value,
        ih (execute_succeeds hconn (hok 0)).2 (fun i => hok (i + 1)) [], if_pos hline]
      cases (cutGroups rest).1 with
      | nil => simp only [List.flatten_singleton, List.nil_append, List.map_nil]
      | cons g groups => simp only [List.flatten_singleton, List.nil_append, List.map_cons]
    · rw [initLines_open hline, Traced.bind_value, ih hconn hok (query ++ line), if_neg hline]
      cases (cutGroups rest).1 with
      | nil => simp only [List.flatten_cons, List.append_assoc]
      | cons g groups => simp only [List.flatten_cons, List.append_assoc]

/-- When every statement is executed, all groups of lines have been sent and the rest is left over.
-/
theorem value_initData (hconn : db.mMysql.isSome = true) (hok : ∀ i, (answers i).error = none)
    (content : Bytes) :
    (CMysqlManager.initData db answers (some content)).value =
      ⟨true, (cutGroups (lines content)).1.map fun g => cstr g.flatten,
        (cutGroups (lines content)).2.flatten⟩ := by
  rw [CMysqlManager.initData, value_initLines hconn hok]
  cases (cutGroups (lines content)).1 with
  | nil => rfl
  | cons g groups => rfl

end Succeeding

/-! ## When a script is executed as it is written -/

/-- With every `execute` succeeding, a script is executed as it is written exactly when it has no
empty line, white space at each line break inside a statement, no NUL in a statement, and only
white space behind the last one. -/
theorem initData_faithful_iff {db : CDatabaseMysql} {answers : Nat → Outcomes}
    (hconn : db.mMysql.isSome = true) (hok : ∀ i, (answers i).error = none) (content : Bytes) :
    Faithful content (CMysqlManager.initData db answers (some content)) ↔
      [] ∉ lines content ∧
        (∀ g ∈ (cutGroups (lines content)).1, Separated g ∧ 0 ∉ g.flatten) ∧
          ∀ line ∈ (cutGroups (lines content)).2, ∀ c ∈ line, isSpace c = true := by
  have hback : (CMysqlManager.initData db answers (some content)).All (· ≠ []) ↔
      [] ∉ lines content := by
    rw [Traced.All, CMysqlManager.initData, accesses_initLines hconn hok]
    exact ⟨fun h hin => h [] hin rfl, fun h line hline heq => h (heq ▸ hline)⟩
  have hgroups : List.Forall₂ Renders (cutGroups (lines content)).1
      ((cutGroups (lines content)).1.map fun g => cstr g.flatten) ↔
        ∀ g ∈ (cutGroups (lines content)).1, Separated g ∧ 0 ∉ g.flatten := by
    rw [List.forall₂_map_right_iff, List.forall₂_same]
    exact forall₂_congr fun g hg => renders_cstr_iff (ne_nil_of_mem_cutGroups hg)
  have hleft : (∀ c ∈ (cutGroups (lines content)).2.flatten, isSpace c = true) ↔
      ∀ line ∈ (cutGroups (lines content)).2, ∀ c ∈ line, isSpace c = true := by
    simp only [List.mem_flatten]
    constructor
    · intro h line hline c hc
      exact h c ⟨line, hline, hc⟩
    · rintro h c ⟨line, hline, hc⟩
      exact h line hline c hc
  rw [Faithful, hback, value_initData hconn hok, hgroups, ← hleft]
  simp only [true_imp_iff]

/-- A connection that is open. -/
def opened : CDatabaseMysql := { CDatabaseMysql.new with mMysql := some 0 }

/-- A client library on which every call succeeds. -/
def succeeding (_ : Nat) : Outcomes := ⟨true, none, true, 0, true, 0⟩

/-- `a` and, indented, `b;`. -/
theorem initData_faithful_indented :
    Faithful [97, 10, 32, 98, 59, 10]
      (CMysqlManager.initData opened succeeding (some [97, 10, 32, 98, 59, 10])) := by
  apply (initData_faithful_iff rfl (fun _ => rfl) _).mpr
  refine ⟨by decide, ?_, ?_⟩
  · intro g hg
    rw [List.mem_singleton.mp hg]
    exact ⟨⟨Or.inr ⟨32, rfl, rfl⟩, trivial⟩, by decide⟩
  · intro line hline
    cases hline

/-- Of `a`, `b;`, an empty line and `c` the statement is `ab;`, `back()` is called on the empty
line, and `c` is left. -/
theorem initData_script :
    let run := CMysqlManager.initData opened succeeding (some [97, 10, 98, 59, 10, 10, 99])
    ¬ run.All (· ≠ []) ∧
      ¬ List.Forall₂ Renders (cutGroups (lines [97, 10, 98, 59, 10, 10, 99])).1
        run.value.statements ∧
      run.value.result = true ∧ ¬ ∀ c ∈ run.value.query, isSpace c = true := by
  refine ⟨fun hback => hback [] (by decide) rfl, ?_, by decide, by decide⟩
  intro h
  cases h with
  | cons hfirst _ =>
    obtain ⟨hparted, -⟩ := (hfirst.separated (by decide)).2
    rcases hparted with ⟨c, hc, hspace⟩ | ⟨c, hc, hspace⟩
    · cases hc
      exact absurd hspace (by decide)
    · cases hc
      exact absurd hspace (by decide)

end ChatRoom.Db
