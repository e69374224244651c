/-
Module: EvalCharts.Proofs.Table.Append
Purpose: A table is read row by row: behind whole rows the scan goes on as at the beginning of a table, so
  what is read below a header is what the parts below it are read as, one after the other.
Main exports: Scan.Settled, Scan.Alike, rows_foldl, IsHeader, WholeRows, RowsRead, read_append
-/
import EvalCharts.Proofs.Table.Faults

namespace EvalCharts.Table

/-! ### Scans that go on -/

namespace Scan

/-- Between rows nothing of a row is left over. -/
def Settled (scan : Scan) : Prop :=
  scan.mode = .betweenRows → scan.cell = [] ∧ scan.cells = []

theorem settled_begin (position : Position) : (begin position).Settled :=
  fun _ => ⟨rfl, rfl⟩

/-- No content stands between rows. -/
def Action.Inside (action : Action) : Prop :=
  action ≠ .keep .betweenRows ∧ action ≠ .drop .betweenRows

theorem inside_unquoted (byte : UInt8) : Action.Inside (.unquoted byte) := by
  unfold Action.unquoted Action.Inside
  split
  · simp
  · split <;> simp

theorem inside_act (mode : Mode) (byte : UInt8) : Action.Inside (mode.act byte) := by
  have hdrop : ∀ next, next ≠ Mode.betweenRows → Action.Inside (.drop next) := by
    intro next hne
    exact ⟨by simp, by simpa using hne⟩
  have hkeep : ∀ next, next ≠ Mode.betweenRows → Action.Inside (.keep next) := by
    intro next hne
    exact ⟨by simpa using hne, by simp⟩
  unfold Mode.act
  cases mode with
  | betweenRows =>
      dsimp only
      split
      · exact ⟨by simp, by simp⟩
      · split
        · exact hdrop _ (by decide)
        · exact inside_unquoted byte
  | cellStart =>
      dsimp only
      split
      · exact hdrop _ (by decide)
      · exact inside_unquoted byte
  | plain => exact inside_unquoted byte
  | quoted =>
      dsimp only
      split
      · exact hdrop _ (by decide)
      · exact hkeep _ (by decide)
  | afterQuote =>
      dsimp only
      split
      · exact hkeep _ (by decide)
      · exact inside_unquoted byte

theorem Settled.step {scan : Scan} (h : scan.Settled) (byte : UInt8) : (scan.step byte).Settled := by
  obtain ⟨hkeep, hdrop⟩ := inside_act scan.mode byte
  intro hmode
  unfold Scan.step at hmode ⊢
  cases hact : scan.mode.act byte with
  | skip =>
      rw [hact] at hmode
      exact h hmode
  | keep next =>
      rw [hact] at hmode hkeep
      exact absurd (congrArg Action.keep hmode) hkeep
  | drop next =>
      rw [hact] at hmode hdrop
      exact absurd (congrArg Action.drop hmode) hdrop
  | endCell =>
      rw [hact] at hmode
      cases hmode
  | endRow => exact ⟨rfl, rfl⟩

theorem Settled.foldl {scan : Scan} (h : scan.Settled) (bytes : List UInt8) :
    (bytes.foldl Scan.step scan).Settled := by
  induction bytes generalizing scan with
  | nil => exact h
  | cons byte bytes ih => exact ih (h.step byte)

/-- Equal but for the places in the file. -/
structure Alike (scan other : Scan) : Prop where
  mode : scan.mode = other.mode
  cell : scan.cell = other.cell
  cells : scan.cells = other.cells
  rows : scan.finished.map Row.cells = other.finished.map Row.cells

theorem Alike.step {scan other : Scan} (h : scan.Alike other) (byte : UInt8) :
    (scan.step byte).Alike (other.step byte) := by
  have hcurrent : scan.currentCells = other.currentCells := by
    rw [currentCells, currentCells, h.cell, h.cells]
  unfold Scan.step
  rw [h.mode]
  cases other.mode.act byte with
  | skip => exact ⟨rfl, h.cell, h.cells, h.rows⟩
  | keep next => exact ⟨rfl, congrArg (byte :: ·) h.cell, h.cells, h.rows⟩
  | drop next => exact ⟨rfl, h.cell, h.cells, h.rows⟩
  | endCell =>
      refine ⟨rfl, rfl, ?_, h.rows⟩
      dsimp only
      rw [h.cell, h.cells]
  | endRow =>
      refine ⟨rfl, rfl, rfl, ?_⟩
      dsimp only
      rw [List.map_cons, List.map_cons, h.rows, hcurrent]

theorem Alike.foldl {scan other : Scan} (h : scan.Alike other) (bytes : List UInt8) :
    (bytes.foldl Scan.step scan).Alike (bytes.foldl Scan.step other) := by
  induction bytes generalizing scan other with
  | nil => exact h
  | cons byte bytes ih => exact ih (h.step byte)

theorem Alike.map_rows {scan other : Scan} (h : scan.Alike other) :
    scan.rows.map Row.cells = other.rows.map Row.cells := by
  unfold Scan.rows
  rw [h.mode]
  split
  · rw [finishedRows, finishedRows, List.map_reverse, List.map_reverse, h.rows]
  · rw [List.map_reverse, List.map_reverse, List.map_cons, List.map_cons, h.rows, currentCells,
      currentCells, h.cell, h.cells]

/-- A scan with more finished rows in front. -/
def after (scan : Scan) (rows : List Row) : Scan :=
  { scan with finished := scan.finished ++ rows.reverse }

theorem after_step (scan : Scan) (rows : List Row) (byte : UInt8) :
    (scan.after rows).step byte = (scan.step byte).after rows := by
  unfold Scan.step after
  dsimp only
  cases scan.mode.act byte <;> rfl

theorem after_foldl (scan : Scan) (rows : List Row) (bytes : List UInt8) :
    bytes.foldl Scan.step (scan.after rows) = (bytes.foldl Scan.step scan).after rows := by
  induction bytes generalizing scan with
  | nil => rfl
  | cons byte bytes ih => rw [List.foldl_cons, List.foldl_cons, after_step, ih]

theorem rows_after (scan : Scan) (rows : List Row) : (scan.after rows).rows = rows ++ scan.rows := by
  unfold Scan.rows finishedRows after
  dsimp only
  split
  · rw [List.reverse_append, List.reverse_reverse]
  · rw [← List.cons_append, List.reverse_append, List.reverse_reverse]
    rfl

/-- Between rows a scan is one of nothing, behind the rows that it has finished. -/
theorem Settled.exists_after {scan : Scan} (h : scan.Settled) (hmode : scan.mode = .betweenRows) :
    ∃ renewed : Scan, renewed.Alike (begin .origin) ∧ scan = renewed.after scan.finishedRows := by
  obtain ⟨hcell, hcells⟩ := h hmode
  refine ⟨{ scan with finished := [] }, ⟨hmode, hcell, hcells, rfl⟩, ?_⟩
  unfold after finishedRows
  rw [List.reverse_reverse]
  rfl

/-- Between rows a scan goes on as at the beginning. -/
theorem Settled.mode_foldl {scan : Scan} (h : scan.Settled) (hmode : scan.mode = .betweenRows)
    (bytes : List UInt8) :
    (bytes.foldl Scan.step scan).mode = (bytes.foldl Scan.step (begin .origin)).mode := by
  obtain ⟨renewed, halike, hafter⟩ := h.exists_after hmode
  rw [hafter, after_foldl]
  exact (halike.foldl bytes).mode

theorem Settled.rows_foldl {scan : Scan} (h : scan.Settled) (hmode : scan.mode = .betweenRows)
    (bytes : List UInt8) :
    ∃ rows, (bytes.foldl Scan.step scan).rows = scan.finishedRows ++ rows ∧
      rows.map Row.cells = (bytes.foldl Scan.step (begin .origin)).rows.map Row.cells := by
  obtain ⟨renewed, halike, hafter⟩ := h.exists_after hmode
  refine ⟨(bytes.foldl Scan.step renewed).rows, ?_, (halike.foldl bytes).map_rows⟩
  rw [← rows_after, ← after_foldl, ← hafter]

end Scan

/-! ### Files in parts -/

/-- Bytes behind which a row begins, if one begins in front of them. -/
def WholeRows (bytes : List UInt8) : Prop :=
  (bytes.foldl Scan.step (Scan.begin .origin)).mode = .betweenRows

/-- A header and its end: the file has the header's row, and another one would begin behind it. -/
structure IsHeader (head : List UInt8) (row : Row) : Prop where
  ended : (scan head).mode = .betweenRows
  rows : (scan head).finishedRows = [row]

theorem settled_scan (bytes : List UInt8) : (scan bytes).Settled := by
  unfold scan
  split <;> exact (Scan.settled_begin _).foldl _

/-- Behind a finished row there is no byte order mark to be taken off any more. -/
theorem scan_append {head : List UInt8} (h : (scan head).finishedRows ≠ []) (bytes : List UInt8) :
    scan (head ++ bytes) = bytes.foldl Scan.step (scan head) := by
  conv => lhs; unfold scan
  split
  · rename_i content heq
    match head, heq with
    | [], _ => exact absurd rfl h
    | [first], heq =>
        obtain ⟨rfl, -⟩ := List.cons.inj heq
        exact absurd rfl h
    | [first, second], heq =>
        obtain ⟨rfl, hrest⟩ := List.cons.inj heq
        obtain ⟨rfl, -⟩ := List.cons.inj hrest
        exact absurd rfl h
    | first :: second :: third :: head, heq =>
        simp only [List.cons_append, List.cons.injEq] at heq
        obtain ⟨rfl, rfl, rfl, rfl⟩ := heq
        exact List.foldl_append
  · rename_i hmark
    unfold scan
    split
    · exact absurd rfl (hmark _)
    · exact List.foldl_append

namespace IsHeader

variable {head first : List UInt8} {row : Row}

theorem scan_append (h : IsHeader head row) (bytes : List UInt8) :
    scan (head ++ bytes) = bytes.foldl Scan.step (scan head) := by
  apply Table.scan_append
  rw [h.rows]
  exact List.cons_ne_nil _ _

/-- Behind a header stand the rows that the bytes make up for themselves. -/
theorem rows_append (h : IsHeader head row) (bytes : List UInt8) :
    ∃ rows, (scan (head ++ bytes)).rows = row :: rows ∧
      rows.map Row.cells = (bytes.foldl Scan.step (Scan.begin .origin)).rows.map Row.cells := by
  obtain ⟨rows, hrows, hcells⟩ := (settled_scan head).rows_foldl h.ended bytes
  refine ⟨rows, ?_, hcells⟩
  rw [h.scan_append, hrows, h.rows, List.singleton_append]

/-- Behind whole rows stand further ones. -/
theorem rows_append_append (h : IsHeader head row) (hfirst : WholeRows first) (second : List UInt8) :
    ∃ rows, (scan (head ++ first ++ second)).rows = (scan (head ++ first)).rows ++ rows ∧
      rows.map Row.cells = (second.foldl Scan.step (Scan.begin .origin)).rows.map Row.cells := by
  have hmode : (scan (head ++ first)).mode = .betweenRows := by
    rw [h.scan_append, (settled_scan head).mode_foldl h.ended]
    exact hfirst
  obtain ⟨rows, hrows, hcells⟩ := (settled_scan (head ++ first)).rows_foldl hmode second
  refine ⟨rows, ?_, hcells⟩
  have hall : (scan (head ++ first)).rows = (scan (head ++ first)).finishedRows := if_pos hmode
  rw [List.append_assoc, h.scan_append, List.foldl_append, ← h.scan_append, hrows, hall]

end IsHeader

/-! ### Reading in parts -/

/-- What the rows below a header are read as: the runs of all of them, or the failure of the first one
    that cannot be read. -/
def RowsRead (header : Header) (rows : List Row) : Except ReadFailure Dataset → Prop
  | .ok dataset => List.Forall₂ (fun row run => readRow header row.cells = .ok run) rows dataset.runs
  | .error failure => FirstFault header 1 rows failure

theorem rowsRead_readRows (header : Header) (rows : List Row) :
    RowsRead header rows ((readRows header rows).map Dataset.mk) := by
  cases h : readRows header rows with
  | error failure => exact readRows_eq_error_iff.1 h
  | ok runs => exact readRows_eq_ok_iff.1 h

namespace IsHeader

variable {head bytes : List UInt8} {row : Row} {rows : List Row} {header : Header}

theorem read_of_text (hheader : readHeader row.cells = .ok header)
    (hrows : (scan (head ++ bytes)).rows = row :: rows) :
    read (.whole (head ++ bytes)) = (readRows header rows).map Dataset.mk := by
  change (readTable (scan (head ++ bytes)).rows).map Dataset.mk = _
  rw [hrows, readTable_cons, hheader]

theorem read_eq_ok_iff (hheader : readHeader row.cells = .ok header)
    (hrows : (scan (head ++ bytes)).rows = row :: rows) {runs : List Run} :
    read (.whole (head ++ bytes)) = .ok ⟨runs⟩ ↔
      List.Forall₂ (fun row run => readRow header row.cells = .ok run) rows runs := by
  rw [read_of_text hheader hrows, ← readRows_eq_ok_iff]
  cases readRows header rows with
  | error failure => exact iff_of_false (fun h => by cases h) (fun h => by cases h)
  | ok others =>
      change Except.ok (Dataset.mk others) = _ ↔ _
      rw [Except.ok.injEq, Except.ok.injEq, Dataset.mk.injEq]

theorem read_eq_error_iff (hheader : readHeader row.cells = .ok header)
    (hrows : (scan (head ++ bytes)).rows = row :: rows) {failure : ReadFailure} :
    read (.whole (head ++ bytes)) = .error failure ↔ FirstFault header 1 rows failure := by
  rw [read_of_text hheader hrows, ← readRows_eq_error_iff]
  cases readRows header rows with
  | error other =>
      change Except.error other = _ ↔ _
      rw [Except.error.injEq, Except.error.injEq]
  | ok runs => exact iff_of_false (fun h => by cases h) (fun h => by cases h)

/-- A header that is not text is the fault of every file that it begins. -/
theorem read_of_fault (h : IsHeader head row) {fault : RowFault}
    (hfault : readHeader row.cells = .error fault) (bytes : List UInt8) :
    read (.whole (head ++ bytes)) = .error (.row ⟨0, row.start, fault⟩) := by
  obtain ⟨rows, hrows, -⟩ := h.rows_append bytes
  change (readTable (scan (head ++ bytes)).rows).map Dataset.mk = _
  rw [hrows, readTable_cons, hfault]
  rfl

end IsHeader

/-- Rows with the same cells are read as the same runs. -/
theorem forall₂_readRow_congr {header : Header} {rows rows' : List Row} {runs : List Run}
    (hcells : rows'.map Row.cells = rows.map Row.cells)
    (h : List.Forall₂ (fun row run => readRow header row.cells = .ok run) rows runs) :
    List.Forall₂ (fun row run => readRow header row.cells = .ok run) rows' runs := by
  rw [← List.forall₂_map_left_iff (f := Row.cells)
    (R := fun cells run => readRow header cells = .ok run)] at h ⊢
  rw [hcells]
  exact h

/-- Rows with the same cells have the same fault, also if they are numbered from elsewhere. -/
theorem FirstFault.congr {header : Header} {number : Nat} {rows rows' : List Row}
    {failure : ReadFailure} (hcells : rows'.map Row.cells = rows.map Row.cells)
    (h : FirstFault header number rows failure) (number' : Nat) :
    ∃ index error error', failure = .row error ∧ FirstFault header number' rows' (.row error') ∧
      error.number = number + index ∧ error'.number = number' + index ∧ error'.fault = error.fault := by
  obtain ⟨good, bad, rest, fault, rfl, hgood, hbad, rfl⟩ := h
  rw [List.map_append, List.map_cons] at hcells
  obtain ⟨good', rest', rfl, hgood', hrest'⟩ := List.map_eq_append_iff.1 hcells
  obtain ⟨bad', rest', rfl, hbad', -⟩ := List.map_eq_cons_iff.1 hrest'
  have hlength : good'.length = good.length := by
    simpa using congrArg List.length hgood'
  refine ⟨good.length, ⟨_, bad.start, fault⟩, ⟨_, bad'.start, fault⟩, rfl, ?_, rfl, rfl, rfl⟩
  refine ⟨good', bad', rest', fault, rfl, ?_, hbad' ▸ hbad, by rw [hlength]⟩
  intro row hmem
  have hmem' : row.cells ∈ good.map Row.cells := hgood' ▸ List.mem_map_of_mem hmem
  obtain ⟨other, hother, heq⟩ := List.mem_map.1 hmem'
  rw [← heq]
  exact hgood other hother

/-- Behind rows that are read, a fault is found as many rows later. -/
theorem FirstFault.prepend {header : Header} {number : Nat} {rows more : List Row} {runs : List Run}
    {failure : ReadFailure}
    (hrows : List.Forall₂ (fun row run => readRow header row.cells = .ok run) rows runs)
    (h : FirstFault header (number + runs.length) more failure) :
    FirstFault header number (rows ++ more) failure := by
  induction hrows generalizing number with
  | nil => exact h
  | cons hrow hrest ih =>
      rw [List.cons_append, FirstFault.cons_of_ok hrow]
      apply ih
      rwa [List.length_cons, Nat.add_comm _ 1, ← Nat.add_assoc] at h

/-- Reading a file goes row by row. Whole rows and what follows them are read one after the other below
    the same header: the runs are joined, a fault in the second part is found as many rows later as the
    first part has, and a fault in the first part hides the second. What is read below a header that is
    text are the runs of all rows, or the first fault; a header that is not text is itself the fault. -/
theorem read_append {head first : List UInt8} {row : Row} (hhead : IsHeader head row)
    (hfirst : WholeRows first) (second : List UInt8) :
    (∀ runs runs', read (.whole (head ++ first)) = .ok ⟨runs⟩ →
      read (.whole (head ++ second)) = .ok ⟨runs'⟩ →
      read (.whole (head ++ first ++ second)) = .ok ⟨runs ++ runs'⟩) ∧
    (∀ runs failure, read (.whole (head ++ first)) = .ok ⟨runs⟩ →
      read (.whole (head ++ second)) = .error failure →
      ∃ error error', failure = .row error ∧
        read (.whole (head ++ first ++ second)) = .error (.row error') ∧
        (ReadFailure.row error').wanted = runs.length + failure.wanted ∧
        error'.fault = error.fault) ∧
    (∀ failure, read (.whole (head ++ first)) = .error failure →
      read (.whole (head ++ first ++ second)) = .error failure) ∧
    ∀ bytes, ∃ rows, (scan (head ++ bytes)).rows = row :: rows ∧
      (∀ header, readHeader row.cells = .ok header →
        RowsRead header rows (read (.whole (head ++ bytes)))) ∧
      ∀ fault, readHeader row.cells = .error fault →
        read (.whole (head ++ bytes)) = .error (.row ⟨0, row.start, fault⟩) := by
  obtain ⟨rows, hrows, -⟩ := hhead.rows_append first
  obtain ⟨more, hmore, hcells⟩ := hhead.rows_append second
  obtain ⟨more', hall, hcells'⟩ := hhead.rows_append_append hfirst second
  have hsame : more'.map Row.cells = more.map Row.cells := hcells'.trans hcells.symm
  rw [hrows, List.append_assoc] at hall
  rw [List.append_assoc]
  cases hheader : readHeader row.cells with
  | error fault =>
      have hfails := hhead.read_of_fault hheader
      refine ⟨?_, ?_, ?_, ?_⟩
      · intro runs runs' h
        rw [hfails] at h
        cases h
      · intro runs failure h
        rw [hfails] at h
        cases h
      · intro failure h
        rw [hfails] at h ⊢
        exact h
      · intro bytes
        obtain ⟨others, hothers, -⟩ := hhead.rows_append bytes
        refine ⟨others, hothers, ?_, ?_⟩
        · intro header h
          cases h
        · intro other h
          cases h
          exact hfails bytes
  | ok header =>
      refine ⟨?_, ?_, ?_, ?_⟩
      · intro runs runs' h h'
        rw [IsHeader.read_eq_ok_iff hheader hrows] at h
        rw [IsHeader.read_eq_ok_iff hheader hmore] at h'
        rw [IsHeader.read_eq_ok_iff hheader hall]
        exact List.rel_append h (forall₂_readRow_congr hsame h')
      · intro runs failure h h'
        rw [IsHeader.read_eq_ok_iff hheader hrows] at h
        rw [IsHeader.read_eq_error_iff hheader hmore] at h'
        obtain ⟨index, error, error', rfl, hfault, hnumber, hnumber', heq⟩ :=
          h'.congr hsame (1 + runs.length)
        have hread := (IsHeader.read_eq_error_iff hheader hall).2 (hfault.prepend h)
        refine ⟨error, error', rfl, hread, ?_, heq⟩
        change max 1 error'.number = runs.length + max 1 error.number
        omega
      · intro failure h
        rw [IsHeader.read_eq_error_iff hheader hrows] at h
        exact (IsHeader.read_eq_error_iff hheader hall).2 (h.append more')
      · intro bytes
        obtain ⟨others, hothers, -⟩ := hhead.rows_append bytes
        refine ⟨others, hothers, ?_, ?_⟩
        · intro other h
          cases h
          rw [IsHeader.read_of_text hheader hothers]
          exact rowsRead_readRows header others
        · intro fault h
          cases h

/-- A header of all columns. -/
def fullHeader : List UInt8 :=
  Utf8.encode (rowText (fun _ => false) (Column.all.map fun column => column.name.toList) ++ ['\n'])

/-- A row that holds zero in every column. -/
def zeroRow : List UInt8 :=
  Utf8.encode (rowText (fun _ => false) (Column.all.map fun _ => ['0']) ++ ['\n'])

/-- A short row behind a good one is the second row. -/
theorem read_zeroRow_shortRow :
    (∃ row, IsHeader fullHeader row) ∧ WholeRows zeroRow ∧
      ∃ error, read (.whole (fullHeader ++ zeroRow ++ Utf8.encode ['x', '\n'])) = .error (.row error) ∧
        (ReadFailure.row error).wanted = 2 ∧ error.fault = .unequalLengths 1 17 := by
  have hhead : IsHeader fullHeader
      ⟨.origin, Column.all.map fun column => Utf8.encode column.name.toList⟩ :=
    ⟨by decide +kernel, by decide +kernel⟩
  have hwhole : WholeRows zeroRow := by
    unfold WholeRows
    decide +kernel
  have hzero : (read (.whole (fullHeader ++ zeroRow))).map (fun dataset => dataset.runs.length) =
      .ok 1 := by
    decide +kernel
  have hshort : (read (.whole (fullHeader ++ Utf8.encode ['x', '\n']))).map
      (fun dataset => dataset.runs.length) = .error (.row ⟨1, ⟨2, 193⟩, .unequalLengths 1 17⟩) := by
    decide +kernel
  refine ⟨⟨_, hhead⟩, hwhole, ?_⟩
  cases hruns : read (.whole (fullHeader ++ zeroRow)) with
  | error failure =>
      rw [hruns] at hzero
      cases hzero
  | ok dataset =>
      rw [hruns] at hzero
      have hone : dataset.runs.length = 1 := Except.ok.inj hzero
      cases hfails : read (.whole (fullHeader ++ Utf8.encode ['x', '\n'])) with
      | ok other =>
          rw [hfails] at hshort
          cases hshort
      | error failure =>
          rw [hfails] at hshort
          obtain ⟨error, error', rfl, hread, hwanted, hfault⟩ :=
            (read_append hhead hwhole (Utf8.encode ['x', '\n'])).2.1 dataset.runs failure hruns hfails
          cases hshort
          refine ⟨error', hread, ?_, hfault⟩
          rw [hwanted, hone]
          rfl

/-- A header that is not text is reported with the number of a row, also where there is none. -/
theorem read_header_without_rows :
    (∃ row, IsHeader [0xFF, 0x0A] row) ∧
      ∃ failure, read (.whole [0xFF, 0x0A]) = .error failure ∧
        (scan [0xFF, 0x0A]).rows[failure.wanted]? = none :=
  ⟨⟨⟨.origin, [[0xFF]]⟩, rfl, rfl⟩, _, rfl, rfl⟩

end EvalCharts.Table
