import ServeD.Lib.Runs
import Mathlib.Data.List.TakeDrop

/-! # The storage of process records

`Storage.java`: `save` inserts a record into the table `processinfo`, `add` puts it into a buffer
first and inserts the buffered records with one batch when the buffer is full. JDBC is the prepared
statement with the parameters that are bound and the rows that are queued; every row fits its
columns.

The batch is as long as the buffer, but every row of it is the record that is being added, and not
the one that was polled (`add_flush`). So table and buffer are the records that were added exactly
when all records up to the last flush are the same (`buffered_iff`). -/

namespace ServeD.System.Processes

open ServeD.Lib.Runs

/-- `ProcessInfo`, also as a row of `processinfo`; `time` is in milliseconds. -/
structure ProcessInfo where
  pid : ℤ
  name : String
  cpu : ℤ
  mem : ℤ
  time : ℤ
  deriving DecidableEq, Repr

def MAX_BUFFER_SIZE : ℕ := 60

/-- The buffer, the insert statement (its parameters and its queue) and the table. -/
structure Storage where
  buffer : List ProcessInfo
  params : Option ProcessInfo
  batch : List ProcessInfo
  table : List ProcessInfo
  deriving DecidableEq, Repr

namespace Storage

/-- `new Storage`, on a database without records. -/
def init : Storage := ⟨[], none, [], []⟩

/-- `setInt(1, processInfo.pid)`, …, `setTimestamp(5, processInfo.time)`. -/
def bind (s : Storage) (processInfo : ProcessInfo) : Storage :=
  { s with params := some ⟨processInfo.pid, processInfo.name, processInfo.cpu, processInfo.mem,
    processInfo.time⟩ }

/-- `insertStatement.execute()`. -/
def execute (s : Storage) : Storage := { s with table := s.table ++ s.params.toList }

/-- `insertStatement.addBatch()`. -/
def addBatch (s : Storage) : Storage := { s with batch := s.batch ++ s.params.toList }

/-- `insertStatement.executeBatch()`. -/
def executeBatch (s : Storage) : Storage := { s with table := s.table ++ s.batch, batch := [] }

/-- `Storage.save`. -/
def save (s : Storage) (processInfo : ProcessInfo) : Storage := (s.bind processInfo).execute

/-- The loop of `add`, one turn for every record of the buffer.
The record that is polled is not used. -/
def queueBuffer (processInfo : ProcessInfo) : List ProcessInfo → Storage → Storage
  | [], s => { s with buffer := [] }
  | _ :: rest, s => queueBuffer processInfo rest
    ({ s with buffer := rest }.bind processInfo).addBatch

/-- `Storage.add`. -/
def add (s : Storage) (processInfo : ProcessInfo) : Storage :=
  let s := if MAX_BUFFER_SIZE ≤ s.buffer.length then
      (queueBuffer processInfo s.buffer s).executeBatch
    else s
  { s with buffer := s.buffer ++ [processInfo] }

end Storage

/-- The storage after `add` of each record. -/
def added (ps : List ProcessInfo) : Storage := run Storage.add .init ps

/-- The storage after `save` of each record. -/
def saved (ps : List ProcessInfo) : Storage := run Storage.save .init ps

/-- What buffering promises: the rows followed by the buffer are the records, the buffer does not
grow beyond its size, and so the table lacks at most as many records as that at its end. -/
structure Buffered (ps : List ProcessInfo) : Prop where
  records : (added ps).table ++ (added ps).buffer = ps
  bounded : (added ps).buffer.length ≤ MAX_BUFFER_SIZE
  behind : ∃ late, late.length ≤ MAX_BUFFER_SIZE ∧ (saved ps).table = (added ps).table ++ late

/-- The number of records that have left the buffer when `n` have been added. -/
def flushed (n : ℕ) : ℕ := MAX_BUFFER_SIZE * ((n - 1) / MAX_BUFFER_SIZE)

/-- The records up to the last one that made the buffer be written. -/
def upToFlush (ps : List ProcessInfo) : List ProcessInfo := ps.take (flushed ps.length + 1)

/-! ### One call -/

theorem queueBuffer_eq (p : ProcessInfo) : ∀ (l : List ProcessInfo) (s : Storage),
    (Storage.queueBuffer p l s).batch = s.batch ++ List.replicate l.length p ∧
      (Storage.queueBuffer p l s).table = s.table ∧ (Storage.queueBuffer p l s).buffer = []
  | [], s => by simp [Storage.queueBuffer]
  | _ :: rest, s => by
    have ih := queueBuffer_eq p rest ({ s with buffer := rest }.bind p).addBatch
    refine ⟨?_, ih.2⟩
    rw [Storage.queueBuffer, ih.1]
    simp [Storage.addBatch, Storage.bind, List.replicate_succ]

variable {s : Storage} {ps : List ProcessInfo} {p : ProcessInfo}

theorem add_buffer (h : s.buffer.length < MAX_BUFFER_SIZE) :
    s.add p = { s with buffer := s.buffer ++ [p] } := by
  have hn : ¬ MAX_BUFFER_SIZE ≤ s.buffer.length := by omega
  unfold Storage.add
  rw [if_neg hn]

/-- **A full buffer is written as copies of the record that comes next.** -/
theorem add_flush (h : MAX_BUFFER_SIZE ≤ s.buffer.length) (hb : s.batch = []) :
    (s.add p).table = s.table ++ List.replicate s.buffer.length p ∧ (s.add p).buffer = [p] ∧
      (s.add p).batch = [] := by
  obtain ⟨h1, h2, h3⟩ := queueBuffer_eq p s.buffer s
  unfold Storage.add
  rw [if_pos h]
  simp [Storage.executeBatch, h1, h2, h3, hb]

theorem table_saved (ps : List ProcessInfo) : (saved ps).table = ps := by
  induction ps using List.reverseRecOn with
  | nil => rfl
  | append_singleton ps p ih =>
    rw [saved, run_concat]
    change (saved ps).table ++ [p] = ps ++ [p]
    rw [ih]

/-! ### Where the records are -/

theorem flushed_succ (n : ℕ) :
    n - flushed n < MAX_BUFFER_SIZE ∧ flushed (n + 1) = flushed n ∨
      n - flushed n = MAX_BUFFER_SIZE ∧ flushed (n + 1) = n := by
  unfold flushed MAX_BUFFER_SIZE
  omega

theorem flushed_le (n : ℕ) : flushed n ≤ n ∧ n ≤ flushed n + MAX_BUFFER_SIZE := by
  unfold flushed MAX_BUFFER_SIZE
  omega

/-- What is in the buffer are the records that were added last, and the table has as many rows as
there are other records. -/
structure Holds (ps : List ProcessInfo) (s : Storage) : Prop where
  buffer : s.buffer = ps.drop (flushed ps.length)
  batch : s.batch = []
  rows : s.table.length = flushed ps.length

theorem Holds.length (h : Holds ps s) : s.buffer.length = ps.length - flushed ps.length := by
  rw [h.buffer, List.length_drop]

theorem Holds.add (h : Holds ps s) (p : ProcessInfo) : Holds (ps ++ [p]) (s.add p) := by
  have hlen := h.length
  have hle := (flushed_le ps.length).1
  rcases flushed_succ ps.length with ⟨hlt, hf⟩ | ⟨heq, hf⟩
  · rw [add_buffer (by omega)]
    refine ⟨?_, h.batch, ?_⟩
    · change s.buffer ++ [p] = _
      rw [List.length_append, List.length_singleton, hf,
        List.drop_append_of_le_length hle, h.buffer]
    · change s.table.length = _
      rw [List.length_append, List.length_singleton, hf, h.rows]
  · obtain ⟨ht, hb, hq⟩ := add_flush (p := p) (by omega) h.batch
    refine ⟨?_, hq, ?_⟩
    · rw [hb, List.length_append, List.length_singleton, hf, List.drop_left]
    · rw [ht, List.length_append, List.length_replicate, List.length_append,
        List.length_singleton, hf, h.rows, hlen]
      omega

theorem holds_added (ps : List ProcessInfo) : Holds ps (added ps) := by
  induction ps using List.reverseRecOn with
  | nil => exact ⟨rfl, rfl, rfl⟩
  | append_singleton ps p ih =>
    rw [added, run_concat]
    exact ih.add p

/-! ### When the rows are right -/

/-- The records are all the same. -/
def Same (l : List ProcessInfo) : Prop := ∀ p ∈ l, ∀ q ∈ l, p = q

theorem same_concat {l : List ProcessInfo} : Same (l ++ [p]) ↔ ∀ q ∈ l, q = p := by
  constructor
  · intro h q hq
    exact h q (List.mem_append_left _ hq) p (by simp)
  · intro h q hq r hr
    have hall : ∀ q ∈ l ++ [p], q = p := by
      intro q hq
      rcases List.mem_append.mp hq with hq | hq
      · exact h q hq
      · exact List.mem_singleton.mp hq
    rw [hall q hq, hall r hr]

/-- The call that writes the buffer: the rows are right if they were, and the buffered records are
the record that is added. -/
theorem table_flush (h : Holds ps s) (hn : ps.length - flushed ps.length = MAX_BUFFER_SIZE) :
    (s.add p).table = ps ↔
      s.table = ps.take (flushed ps.length) ∧ ∀ q ∈ ps.drop (flushed ps.length), q = p := by
  have hlen := h.length
  rw [(add_flush (p := p) (by omega) h.batch).1]
  have hrep : List.replicate s.buffer.length p = ps.drop (flushed ps.length) ↔
      ∀ q ∈ ps.drop (flushed ps.length), q = p := by
    rw [eq_comm, List.eq_replicate_iff, ← h.buffer]
    exact and_iff_right rfl
  rw [← hrep]
  constructor
  · intro ht
    refine List.append_inj (ht.trans (List.take_append_drop (flushed ps.length) ps).symm) ?_
    rw [h.rows, List.length_take]
    have := (flushed_le ps.length).1
    omega
  · rintro ⟨ht, hr⟩
    rw [ht, hr, List.take_append_drop]

theorem table_iff (ps : List ProcessInfo) :
    (added ps).table = ps.take (flushed ps.length) ↔ Same (upToFlush ps) := by
  induction ps using List.reverseRecOn with
  | nil => exact iff_of_true rfl fun q hq => by cases hq
  | append_singleton ps p ih =>
    have hh := holds_added ps
    have hle := (flushed_le ps.length).1
    have hadd : added (ps ++ [p]) = (added ps).add p := run_concat _ _ _
    unfold upToFlush
    rw [hadd, List.length_append, List.length_singleton]
    rcases flushed_succ ps.length with ⟨hlt, hf⟩ | ⟨heq, hf⟩
    · rw [add_buffer (by rw [hh.length]; exact hlt), hf, List.take_append_of_le_length hle]
      refine ih.trans ?_
      unfold upToFlush
      rcases Nat.eq_zero_or_pos ps.length with h0 | h0
      · -- the first record
        obtain rfl := List.eq_nil_of_length_eq_zero h0
        exact iff_of_true (fun q hq => by simp at hq) fun q hq r hr => by
          rw [List.mem_singleton.mp (List.mem_of_mem_take hq),
            List.mem_singleton.mp (List.mem_of_mem_take hr)]
      · have hlt' : flushed ps.length + 1 ≤ ps.length := by
          unfold flushed MAX_BUFFER_SIZE
          omega
        rw [List.take_append_of_le_length hlt']
    · have htake : (ps ++ [p]).take (ps.length + 1) = ps ++ [p] := List.take_of_length_le (by simp)
      rw [hf, List.take_left, table_flush hh heq, ih, htake, same_concat]
      constructor
      · rintro ⟨hsame, hdrop⟩ q hq
        have hlt : flushed ps.length < ps.length := by
          unfold MAX_BUFFER_SIZE at heq
          omega
        -- the first record of the buffer is among those up to the flush before
        have hfirst : ps[flushed ps.length] = p :=
          hdrop _ (List.mem_drop_iff_getElem.mpr ⟨0, by omega, rfl⟩)
        rw [← List.take_append_drop (flushed ps.length) ps] at hq
        rcases List.mem_append.mp hq with hq | hq
        · rw [← hfirst]
          unfold upToFlush at hsame
          have hmem : ps[flushed ps.length] ∈ ps.take (flushed ps.length + 1) :=
            List.mem_take_iff_getElem.mpr ⟨flushed ps.length, by omega, rfl⟩
          exact hsame q (List.take_subset_take_left ps (Nat.le_succ _) hq) _ hmem
        · exact hdrop q hq
      · intro h
        refine ⟨fun q hq r hr => ?_, fun q hq => h q (List.mem_of_mem_drop hq)⟩
        rw [h q (List.mem_of_mem_take hq), h r (List.mem_of_mem_take hr)]

/-- **Buffering keeps its promise exactly when all records up to the last flush are the same**, in
particular as long as nothing has been written. -/
theorem buffered_iff (ps : List ProcessInfo) : Buffered ps ↔ Same (upToFlush ps) := by
  have hh := holds_added ps
  have hbounded : (added ps).buffer.length ≤ MAX_BUFFER_SIZE := by
    have := (flushed_le ps.length).2
    rw [hh.length]
    omega
  rw [← table_iff]
  constructor
  · intro h
    refine (List.append_inj (h.records.trans (List.take_append_drop (flushed ps.length) ps).symm)
      ?_).1
    rw [hh.rows, List.length_take]
    have := (flushed_le ps.length).1
    omega
  · intro ht
    have hrec : (added ps).table ++ (added ps).buffer = ps := by
      rw [ht, hh.buffer, List.take_append_drop]
    exact ⟨hrec, hbounded, (added ps).buffer, hbounded, by rw [table_saved, hrec]⟩

/-- The records of the test: 60 with the pids 1, …, 60, and then one with the pid 0. -/
def delaySave : List ProcessInfo :=
  (List.range 60).map (fun (i : ℕ) => ⟨i + 1, "tmp", 10, 20, 0⟩) ++ [⟨0, "tmp", 10, 20, 0⟩]

/-- The table has 60 rows with the pid 0. -/
theorem not_buffered_delaySave : ¬ Buffered delaySave := by
  intro h
  have hne : (added delaySave).table ++ (added delaySave).buffer ≠ delaySave := by decide +kernel
  exact hne h.records

end ServeD.System.Processes
