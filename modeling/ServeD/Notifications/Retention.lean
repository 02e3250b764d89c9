import ServeD.Lib.Texts

/-! # Old notifications

`moveOldNotificationsToHistoryAndCleanHistory`: two loops over the names of a directory, newest
first, that count down and act on the indices above a limit. An index above the limit means one file
more than the limit is kept, and a file whose name is in the history already is removed without a
copy.

* `notifications_moveOld`, `history_moveOld`: what the loops leave of any two directories;
* `retains_iff`: it is what was meant only if there is nothing to do. -/

namespace ServeD.Notifications.Retention

open ServeD.Lib.Texts

variable {α : Type}

def NOTIFICATIONS_LAST_SHOWN : ℕ := 7

def NOTIFICATIONS_HISTORY_KEEP_UPTO : ℕ := 100

/-! ### Directories -/

structure File (α : Type) where
  name : Text
  time : ℕ
  content : α
  deriving DecidableEq, Repr

/-- A directory, the newest file first. -/
structure Directory (α : Type) where
  files : List (File α)
  newestFirst : files.Pairwise fun f g => g.time < f.time
  distinct : (files.map File.name).Nodup

namespace Directory

/-- `entryList(QDir::Files, QDir::Time)` -/
def entryList (d : Directory α) : List Text := d.files.map File.name

/-- `QFile::remove` -/
def remove (d : Directory α) (name : Text) : Directory α where
  files := d.files.filter (·.name != name)
  newestFirst := d.newestFirst.filter _
  distinct := d.distinct.sublist (List.filter_sublist.map File.name)

/-- A new file. -/
def add (d : Directory α) (f : File α) (htime : ∀ g ∈ d.files, g.time < f.time)
    (hname : f.name ∉ d.entryList) :
    Directory α where
  files := f :: d.files
  newestFirst := List.pairwise_cons.mpr ⟨htime, d.newestFirst⟩
  distinct := List.nodup_cons.mpr ⟨hname, d.distinct⟩

end Directory

/-- The directories `notificationRoot` and `historyRoot`. -/
structure Roots (α : Type) where
  notifications : Directory α
  history : Directory α

/-- The times that files get. -/
structure Clock where
  next : ℕ → ℕ
  lt_next : ∀ t, t < next t

def latest (fs : List (File α)) : ℕ := fs.foldr (fun f t => max f.time t) 0

theorem le_latest {fs : List (File α)} : ∀ f ∈ fs, f.time ≤ latest fs := by
  induction fs with
  | nil => exact fun f hf => absurd hf List.not_mem_nil
  | cons g fs ih =>
    refine List.forall_mem_cons.mpr ⟨Nat.le_max_left _ _, fun f hf => ?_⟩
    exact Nat.le_trans (ih f hf) (Nat.le_max_right _ _)

/-! ### The loops -/

section Loops

variable (clock : Clock)

/-- The time of a file that is written now. -/
def now (s : Roots α) : ℕ := clock.next (latest (s.notifications.files ++ s.history.files))

theorem lt_now (s : Roots α) : ∀ f ∈ s.history.files, f.time < now clock s := by
  intro f hf
  have hle := le_latest f (List.mem_append_right s.notifications.files hf)
  exact Nat.lt_of_le_of_lt hle (clock.lt_next _)

/-- `QFile::copy(notificationRoot + "/" + item, historyRoot + "/" + item)`,
which does not replace a file. -/
def copy (item : Text) (s : Roots α) : Roots α :=
  match s.notifications.files.find? (·.name == item) with
  | none => s
  | some f =>
    if hname : item ∈ s.history.entryList then s
    else { s with history := s.history.add ⟨item, now clock s, f.content⟩ (lt_now clock s) hname }

def removeNotification (item : Text) (s : Roots α) : Roots α :=
  { s with notifications := s.notifications.remove item }

def removeHistory (item : Text) (s : Roots α) : Roots α :=
  { s with history := s.history.remove item }

/-- The first loop, at the index `i`. -/
def moveOld (items : List Text) : ℕ → Roots α → Roots α
  | 0, s => s
  | i + 1, s =>
    if i + 1 > NOTIFICATIONS_LAST_SHOWN then
      let item := items.getD (i + 1) []
      moveOld items i (removeNotification item (copy clock item s))
    else moveOld items i s

/-- The second loop, at the index `i`. -/
def cleanHistory (items : List Text) : ℕ → Roots α → Roots α
  | 0, s => s
  | i + 1, s =>
    if i + 1 > NOTIFICATIONS_HISTORY_KEEP_UPTO then cleanHistory items i
      (removeHistory (items.getD (i + 1) []) s)
    else cleanHistory items i s

def moveOldNotificationsToHistoryAndCleanHistory (s : Roots α) : Roots α :=
  let items := s.notifications.entryList
  let moved := moveOld clock items (items.length - 1) s
  let items := moved.history.entryList
  cleanHistory items (items.length - 1) moved

end Loops

/-! ### What was meant -/

/-- What is kept of a file that is copied. -/
def entry (f : File α) : Text × α := (f.name, f.content)

/-- The files that are to be moved. -/
def old (s : Roots α) : List (File α) := s.notifications.files.drop NOTIFICATIONS_LAST_SHOWN

/-- The history with the moved files, the newest first:
the copies are newer than what was there before. -/
def union (s : Roots α) : List (File α) :=
  old s ++ s.history.files.filter fun g => g.name ∉ (old s).map File.name

/-- **The newest files are kept**: so many of the notifications,
and so many of the moved ones and the history. -/
structure Retains (s s' : Roots α) : Prop where
  notifications : s'.notifications.files = s.notifications.files.take NOTIFICATIONS_LAST_SHOWN
  history : s'.history.entryList = ((union s).take NOTIFICATIONS_HISTORY_KEEP_UPTO).map File.name
  content : ∀ f ∈ s.notifications.files, f ∉ s'.notifications.files → ∀ g ∈ s'.history.files,
    g.name = f.name →
    g.content = f.content

/-- There is no file of its name. -/
def Directory.isNew (d : Directory α) (f : File α) : Bool := f.name ∉ d.entryList

theorem Directory.entryList_eq (d : Directory α) :
    d.entryList = (d.files.map entry).map Prod.fst := by
  rw [List.map_map]
  rfl

/-! ### The last file of a directory -/

section Last

variable {d : Directory α} {fs : List (File α)} {f : File α}

theorem Directory.not_mem_of_append (h : d.files = fs ++ [f]) : f.name ∉ fs.map File.name := by
  have hnodup := d.distinct
  rw [h, List.map_append, List.map_singleton, List.nodup_append] at hnodup
  exact fun hmem => hnodup.2.2 _ hmem _ (List.mem_singleton.mpr rfl) rfl

theorem Directory.remove_last (h : d.files = fs ++ [f]) : (d.remove f.name).files = fs := by
  have hfs : fs.filter (·.name != f.name) = fs := by
    refine List.filter_eq_self.mpr fun g hg => bne_iff_ne.mpr fun heq => ?_
    exact not_mem_of_append h (heq ▸ List.mem_map_of_mem hg)
  change d.files.filter (·.name != f.name) = fs
  rw [h, List.filter_append, hfs, List.filter_singleton, bne_self_eq_false, cond_false,
    List.append_nil]

theorem Directory.find?_last (h : d.files = fs ++ [f]) :
    d.files.find? (·.name == f.name) = some f := by
  have hfs : fs.find? (·.name == f.name) = none := by
    refine List.find?_eq_none.mpr fun g hg heq => ?_
    exact not_mem_of_append h (beq_iff_eq.mp heq ▸ List.mem_map_of_mem hg)
  rw [h, List.find?_append, hfs, Option.none_or, List.find?_singleton, beq_self_eq_true, if_pos rfl]

end Last

theorem take_succ_of_lt (fs : List (File α)) {i : ℕ} (h : i + 1 < fs.length) :
    fs.take (i + 2) = fs.take (i + 1) ++ [fs[i + 1]] ∧ (fs.map File.name).getD (i + 1)
      [] = fs[i + 1].name := by
  refine ⟨List.take_succ_eq_append_getElem h, ?_⟩
  rw [List.getD_eq_getElem?_getD, List.getElem?_map, List.getElem?_eq_getElem h]
  rfl

/-! ### The first loop -/

section MoveOld

variable (clock : Clock) {s : Roots α} {fs : List (File α)} {f : File α}

@[simp] theorem notifications_copy (item : Text) (s : Roots α) :
    (copy clock item s).notifications = s.notifications := by
  unfold copy
  split
  · rfl
  · split <;> rfl

/-- **One file moves**: it is gone, and in the history if there was no file of its name. -/
theorem move_last (h : s.notifications.files = fs ++ [f]) :
    let s' := removeNotification f.name (copy clock f.name s)
    s'.notifications.files = fs ∧
      s'.history.files.map entry =
        (if f.name ∈ s.history.entryList then [] else [entry f]) ++ s.history.files.map entry := by
  refine ⟨?_, ?_⟩
  · simp only [removeNotification, notifications_copy]
    exact Directory.remove_last h
  · simp only [removeNotification, copy, Directory.find?_last h]
    split
    · rfl
    · rfl

/-- The files that are left are new to the history if they were. -/
theorem isNew_move (h : s.notifications.files = fs ++ [f]) {g : File α} (hg : g ∈ fs) :
    (removeNotification f.name (copy clock f.name s)).history.isNew g = s.history.isNew g := by
  have hne : g.name ≠ f.name := fun heq => Directory.not_mem_of_append h
    (heq ▸ List.mem_map_of_mem hg)
  refine decide_eq_decide.mpr ?_
  rw [Directory.entryList_eq, (move_last clock h).2, List.map_append, ← Directory.entryList_eq]
  split
  · rfl
  · simp [entry, hne]

theorem moveOld_of_le {items : List Text} {i : ℕ} (h : i ≤ NOTIFICATIONS_LAST_SHOWN) (s : Roots α) :
    moveOld clock items i s = s := by
  induction i with
  | zero => rfl
  | succ i ih => rw [moveOld, if_neg (by omega), ih (by omega)]

/-- **The first loop** from the index `i`, with the files up to `i` still to be looked at. -/
theorem moveOld_spec : ∀ (i : ℕ) (s : Roots α), i ≤ fs.length - 1 →
    s.notifications.files = fs.take (i + 1) →
    (moveOld clock (fs.map File.name) i s).notifications.files = fs.take (min (i + 1) 8) ∧
      (moveOld clock (fs.map File.name) i s).history.files.map entry =
        (((fs.take (i + 1)).drop 8).filter s.history.isNew).map entry ++
          s.history.files.map entry := by
  intro i
  induction i with
  | zero =>
    intro s _ h
    have hdrop : (fs.take 1).drop 8 = [] := List.drop_eq_nil_of_le (by rw [List.length_take]; omega)
    simp only [moveOld, Nat.zero_add, hdrop]
    exact ⟨h, rfl⟩
  | succ i ih =>
    intro s hi h
    rcases Nat.lt_or_ge NOTIFICATIONS_LAST_SHOWN (i + 1) with hgt | hle
    · have hseven : 7 < i + 1 := hgt
      obtain ⟨htake, hname⟩ := take_succ_of_lt fs (i := i) (by omega)
      rw [htake] at h
      obtain ⟨hcurrent, hhistory⟩ := move_last clock h
      rw [moveOld, if_pos hgt, hname]
      obtain ⟨hfiles, hentries⟩ := ih _ (by omega) hcurrent
      refine ⟨by rw [hfiles]; congr 1; omega, ?_⟩
      have hdrop : (fs.take (i + 2)).drop 8 = (fs.take (i + 1)).drop 8 ++ [fs[i + 1]] := by
        rw [htake, List.drop_append_of_le_length (by rw [List.length_take]; omega)]
      rw [hentries, List.filter_congr fun g hg => isNew_move clock h (List.mem_of_mem_drop hg),
        hhistory, hdrop, List.filter_append, List.map_append, List.append_assoc]
      congr 1
      by_cases hclash : fs[i + 1].name ∈ s.history.entryList
      · simp [Directory.isNew, hclash]
      · simp [Directory.isNew, hclash]
    · have hseven : i + 1 ≤ 7 := hle
      rw [moveOld_of_le clock hle]
      have hdrop : (fs.take (i + 2)).drop 8 = [] :=
        List.drop_eq_nil_of_le (by rw [List.length_take]; omega)
      rw [hdrop]
      exact ⟨by rw [h]; congr 1; omega, rfl⟩

end MoveOld

/-! ### Both loops -/

section Both

variable (clock : Clock) {s : Roots α} {fs : List (File α)}

theorem cleanHistory_of_le {items : List Text} {i : ℕ} (h : i ≤ NOTIFICATIONS_HISTORY_KEEP_UPTO)
    (s : Roots α) :
    cleanHistory items i s = s := by
  induction i with
  | zero => rfl
  | succ i ih => rw [cleanHistory, if_neg (by omega), ih (by omega)]

/-- **The second loop** from the index `i`. -/
theorem cleanHistory_spec : ∀ (i : ℕ) (s : Roots α), i ≤ fs.length - 1 →
    s.history.files = fs.take (i + 1) →
    (cleanHistory (fs.map File.name) i s).history.files = fs.take (min (i + 1) 101) ∧
      (cleanHistory (fs.map File.name) i s).notifications = s.notifications := by
  intro i
  induction i with
  | zero =>
    intro s _ h
    exact ⟨h, rfl⟩
  | succ i ih =>
    intro s hi h
    rcases Nat.lt_or_ge NOTIFICATIONS_HISTORY_KEEP_UPTO (i + 1) with hgt | hle
    · have hhundred : 100 < i + 1 := hgt
      obtain ⟨htake, hname⟩ := take_succ_of_lt fs (i := i) (by omega)
      rw [htake] at h
      have hleft : (removeHistory fs[i + 1].name s).history.files = fs.take (i + 1) :=
        Directory.remove_last h
      rw [cleanHistory, if_pos hgt, hname]
      obtain ⟨hfiles, hnotifications⟩ := ih _ (by omega) hleft
      exact ⟨by rw [hfiles]; congr 1; omega, hnotifications⟩
    · have hhundred : i + 1 ≤ 100 := hle
      rw [cleanHistory_of_le hle]
      exact ⟨by rw [h]; congr 1; omega, rfl⟩

theorem take_length_pred (fs : List (File α)) : fs = fs.take (fs.length - 1 + 1) := by
  rw [List.take_of_length_le (by omega)]

theorem take_min_length (fs : List (File α)) (k : ℕ) :
    fs.take (min (fs.length - 1 + 1) (k + 1)) = fs.take (k + 1) := by
  rcases Nat.le_total (fs.length - 1 + 1) (k + 1) with h | h
  · rw [Nat.min_eq_left h, List.take_of_length_le (by omega), List.take_of_length_le (by omega)]
  · rw [Nat.min_eq_right h]

theorem moveOld_all (s : Roots α) :
    let s' := moveOld clock s.notifications.entryList (s.notifications.entryList.length - 1) s
    s'.notifications.files = s.notifications.files.take 8 ∧
      s'.history.files.map entry =
        ((s.notifications.files.drop 8).filter s.history.isNew).map entry ++
          s.history.files.map entry := by
  have hspec := moveOld_spec clock (s.notifications.files.length - 1) s (Nat.le_refl _)
    (take_length_pred _)
  rw [take_min_length, ← take_length_pred] at hspec
  simpa only [Directory.entryList, List.length_map] using hspec

theorem cleanHistory_all (s : Roots α) :
    let s' := cleanHistory s.history.entryList (s.history.entryList.length - 1) s
    s'.history.files = s.history.files.take 101 ∧ s'.notifications = s.notifications := by
  have hspec := cleanHistory_spec (s.history.files.length - 1) s (Nat.le_refl _)
    (take_length_pred _)
  rw [take_min_length] at hspec
  simpa only [Directory.entryList, List.length_map] using hspec

/-- **What is left of the notifications**: the eight newest. -/
theorem notifications_moveOld (s : Roots α) :
    (moveOldNotificationsToHistoryAndCleanHistory clock s).notifications.files =
      s.notifications.files.take 8 := by
  unfold moveOldNotificationsToHistoryAndCleanHistory
  rw [(cleanHistory_all _).2, (moveOld_all clock s).1]

/-- **What is left of the history**: the newest 101 of what was there and the moved
files whose names are new. -/
theorem history_moveOld (s : Roots α) :
    (moveOldNotificationsToHistoryAndCleanHistory clock s).history.files.map entry =
      (((s.notifications.files.drop 8).filter s.history.isNew ++ s.history.files).take 101).map
        entry := by
  unfold moveOldNotificationsToHistoryAndCleanHistory
  rw [(cleanHistory_all _).1, List.map_take, (moveOld_all clock s).2, ← List.map_append,
    List.map_take]

/-- With few files there is nothing to do. -/
theorem moveOld_of_few (hlast : s.notifications.files.length ≤ 7)
    (hkeep : s.history.files.length ≤ 100) :
    moveOldNotificationsToHistoryAndCleanHistory clock s = s := by
  have hlast' : s.notifications.entryList.length - 1 ≤ NOTIFICATIONS_LAST_SHOWN := by
    rw [Directory.entryList, List.length_map, NOTIFICATIONS_LAST_SHOWN]
    omega
  have hkeep' : s.history.entryList.length - 1 ≤ NOTIFICATIONS_HISTORY_KEEP_UPTO := by
    rw [Directory.entryList, List.length_map, NOTIFICATIONS_HISTORY_KEEP_UPTO]
    omega
  rw [moveOldNotificationsToHistoryAndCleanHistory, moveOld_of_le clock hlast' s]
  exact cleanHistory_of_le hkeep' s

/-- **So many files are kept** only if there are no more of them: there is room for one file too
many in both directories. -/
theorem retains_iff (s : Roots α) :
    Retains s (moveOldNotificationsToHistoryAndCleanHistory clock s) ↔
    s.notifications.files.length ≤ NOTIFICATIONS_LAST_SHOWN ∧
      s.history.files.length ≤ NOTIFICATIONS_HISTORY_KEEP_UPTO := by
  simp only [NOTIFICATIONS_LAST_SHOWN, NOTIFICATIONS_HISTORY_KEEP_UPTO]
  constructor
  · intro h
    have hlast : s.notifications.files.length ≤ 7 := by
      have htake :=
        congrArg List.length ((notifications_moveOld clock s).symm.trans h.notifications)
      rw [List.length_take, List.length_take, NOTIFICATIONS_LAST_SHOWN] at htake
      omega
    have hold : s.notifications.files.drop 8 = [] := List.drop_eq_nil_of_le (by omega)
    have hunion : union s = s.history.files := by
      have hnone : old s = [] := List.drop_eq_nil_of_le hlast
      simp [union, hnone]
    have hhistory := history_moveOld clock s
    rw [hold, List.filter_nil, List.nil_append] at hhistory
    have htake := h.history
    rw [Directory.entryList_eq, hhistory, hunion] at htake
    have hlength := congrArg List.length htake
    simp only [List.length_map, List.length_take, NOTIFICATIONS_HISTORY_KEEP_UPTO] at hlength
    exact ⟨hlast, by omega⟩
  · rintro ⟨hlast, hkeep⟩
    have hnone : old s = [] := List.drop_eq_nil_of_le hlast
    rw [moveOld_of_few clock hlast hkeep]
    refine ⟨(List.take_of_length_le hlast).symm, ?_, fun f hf hgone => absurd hf hgone⟩
    have hall : s.history.files.take NOTIFICATIONS_HISTORY_KEEP_UPTO = s.history.files :=
      List.take_of_length_le hkeep
    rw [union, hnone, List.nil_append, List.map_nil, List.filter_eq_self.mpr (by simp), hall]
    rfl

end Both

/-- Eight notifications. -/
def eight : Roots Text where
  notifications :=
    ⟨[8, 7, 6, 5, 4, 3, 2, 1].map fun i => ⟨[Char.ofNat (48 + i)], i, "text".toList⟩, by
      decide, by decide⟩
  history := ⟨[], by decide, by decide⟩

/-- All of them are left. -/
theorem not_retains_eight :
    ¬ Retains eight (moveOldNotificationsToHistoryAndCleanHistory
        ⟨(· + 1), Nat.lt_succ_self⟩ eight) := by
  intro h
  have htake := (notifications_moveOld _ eight).symm.trans h.notifications
  exact absurd htake (by decide)

end ServeD.Notifications.Retention
