import ServeD.Notifications.IrcTasks

/-! # Paging through the tasks

The paging commands of `SvdIRCGate.onMessage`. The page is a number in Redis, which any list of the
nickname may have left there, so each command first brings it into the range of the pages it has
(`turn`).

`listTasksCmd_eq` says what one command does when the operations of Redis succeed: it stores a page
of the list and sends it. From this, `browse_eq` says it of one command after another. -/

namespace ServeD.Notifications.IrcTasks

open ServeD.Lib.Exceptions ServeD.Lib.Integers ServeD.Lib.Json

/-! ### The pages of a list -/

section Grouped

variable {α : Type} {n : ℕ}

/-- Some pages from the first on. -/
theorem flatten_pages (n : ℕ) (list : List α) (m : ℕ) :
    ((List.range m).map fun i => (list.drop (i * n)).take n).flatten = list.take (m * n) := by
  induction m with
  | zero => simp
  | succ m ih =>
    rw [List.range_succ, List.map_append, List.flatten_append, ih, Nat.succ_mul, List.take_add]
    simp

/-- There are pages for all, and the last one is needed. -/
theorem length_grouped (hn : 1 ≤ n) (list : List α) : list.length ≤ (grouped n list).length * n ∧
    ∀ p, p < (grouped n list).length → p * n < list.length := by
  have hlen : (grouped n list).length = (list.length + n - 1) / n := by
    rw [grouped, List.length_map, List.length_range]
  rw [hlen]
  have hdiv := Nat.div_add_mod (list.length + n - 1) n
  have hmod := Nat.mod_lt (list.length + n - 1) hn
  rw [Nat.mul_comm] at hdiv
  refine ⟨by omega, fun p hp => ?_⟩
  have hmul := Nat.mul_le_mul_right n (Nat.succ_le_of_lt hp)
  rw [Nat.succ_mul] at hmul
  omega

/-- **The pages are the list.** -/
theorem flatten_grouped (hn : 1 ≤ n) (list : List α) : (grouped n list).flatten = list := by
  have hle := (length_grouped hn list).1
  rw [grouped, List.length_map, List.length_range] at hle
  rw [grouped, flatten_pages, List.take_of_length_le hle]

theorem length_grouped_pos (hn : 1 ≤ n) {list : List α} (h : list ≠ []) :
    0 < (grouped n list).length := by
  have hle := (length_grouped hn list).1
  have hpos := List.length_pos_iff.mpr h
  by_contra hzero
  have hz : (grouped n list).length = 0 := by omega
  rw [hz] at hle
  omega

theorem length_grouped_le (hn : 1 ≤ n) (list : List α) : (grouped n list).length ≤ list.length := by
  rcases Nat.eq_zero_or_pos (grouped n list).length with hz | hpos
  · omega
  · have hlt := (length_grouped hn list).2 ((grouped n list).length - 1) (by omega)
    have hmul := Nat.le_mul_of_pos_right ((grouped n list).length - 1) hn
    omega

/-- There is something on every page. -/
theorem page_ne_nil (hn : 1 ≤ n) {list : List α} {p : ℕ} (hp : p < (grouped n list).length) :
    (grouped n list)[p] ≠ [] := by
  have hlt := (length_grouped hn list).2 p hp
  intro hnil
  have hlen := congrArg List.length hnil
  simp only [grouped, List.getElem_map, List.getElem_range, List.length_take, List.length_drop,
    List.length_nil] at hlen
  omega

end Grouped

/-! ### Turning the pages -/

/-- The page a command turns to, of `n` pages. -/
def turn (n : ℕ) (current : ℤ) : TasksPagination → ℤ
  | .head => 0
  | .tail => n - 1
  | .next => limit (plus current 1) 0 (n - 1)
  | .prev => limit (plus current (-1)) 0 (n - 1)

theorem limit_mem (x : ℤ) {max : ℤ} (h : 0 ≤ max) : 0 ≤ limit x 0 max ∧ limit x 0 max ≤ max := by
  unfold limit
  split_ifs <;> omega

/-- There is such a page, whatever number was stored. -/
theorem turn_mem {n : ℕ} (hn : 0 < n) (current : ℤ) (paginate : TasksPagination) :
    0 ≤ turn n current paginate ∧ turn n current paginate < n := by
  have hlast : (0 : ℤ) ≤ n - 1 := by omega
  rcases paginate with _ | _ | _ | _
  · show (0 : ℤ) ≤ 0 ∧ (0 : ℤ) < n
    omega
  · show 0 ≤ (n : ℤ) - 1 ∧ (n : ℤ) - 1 < n
    omega
  · have := limit_mem (plus current 1) hlast
    show 0 ≤ limit _ 0 _ ∧ limit _ 0 _ < (n : ℤ)
    omega
  · have := limit_mem (plus current (-1)) hlast
    show 0 ≤ limit _ 0 _ ∧ limit _ 0 _ < (n : ℤ)
    omega

/-- A sum that does not wrap around. -/
theorem plus_eq {x y : ℤ} (hlo : -2 ^ 31 ≤ x + y) (hhi : x + y < 2 ^ 31) : plus x y = x + y := by
  unfold plus
  rw [Int.bmod_def]
  omega

section Turns

variable {n p : ℕ} (hn : n < 2 ^ 31) (hp : p < n)
include hn hp

theorem turn_next : turn n p .next = ((min (p + 1) (n - 1) : ℕ) : ℤ) := by
  show limit (plus p 1) 0 (n - 1) = _
  rw [plus_eq (by omega) (by omega)]
  unfold limit
  split_ifs <;> omega

theorem turn_prev : turn n p .prev = ((p - 1 : ℕ) : ℤ) := by
  show limit (plus p (-1)) 0 (n - 1) = _
  rw [plus_eq (by omega) (by omega)]
  unfold limit
  split_ifs <;> omega

end Turns

/-! ### One command -/

variable {Text : Type}

/-- The tasks that are listed. -/
def listed (json4s : Codec Text) (redis : Redis Text) (nickname : String) (state : TaskState) :
    List Task :=
  ((parseStored json4s state (redis.tasks (redisKey nickname))).getD Tasks.none).list

/-- The page that is read, 0 if it cannot be. -/
def storedPage (redis : Redis Text) (nickname : String) : ℤ :=
  ((redis.pages (pageKey nickname)).bind parseInt).getD 0

/-- Redis with another page. -/
def Redis.turned (redis : Redis Text) (nickname : String) (page : ℕ) : Redis Text :=
  { redis with
    pages := Function.update redis.pages (pageKey nickname) (some (toString (page : ℤ))) }

/-- What is sent for a page. -/
def listing (sender nickname : String) (state : TaskState) (pages : List (List Task)) (page : ℕ) :
    List String :=
  (sender ++ ": Listing " ++ state.toString ++ " tasks " ++
      (if sender ≠ nickname then "for " ++ nickname ++ " " else "") ++ "(page " ++
        toString ((page : ℤ) + 1) ++
      " of " ++ toString (pages.length : ℤ) ++ ").") ::
    (pages.getD page []).map fun task => sender ++ ": #" ++ toString task.id.toInt ++
      " → " ++ task.content

/-- The nickname has a list, and Redis works. The length of a list is an `Int`. -/
structure Browsable (json4s : Codec Text) (nickname : String) (state : TaskState)
    (s : Session Text) : Prop where
  allowed : nickname ∈ allowedUserNames
  succeeding : ∀ b ∈ s.outcomes, b = true
  nonempty : listed json4s s.redis nickname state ≠ []
  counted : (listed json4s s.redis nickname state).length < 2 ^ 31

section Operations

variable {json4s : Codec Text} {nickname : String} {s : Session Text}

theorem headD_drop {outcomes : List Bool} (h : ∀ b ∈ outcomes, b = true) (k : ℕ) :
    (outcomes.drop k).headD true = true := by
  rcases hd : outcomes.drop k with _ | ⟨b, bs⟩
  · rfl
  · exact h b (List.mem_of_mem_drop (hd ▸ List.mem_cons_self))

theorem getTasks_ok {state : TaskState} (h : s.outcomes.headD true = true) :
    getTasks json4s nickname state s =
      .ok ((parseStored json4s state (s.redis.tasks (redisKey nickname))).getD Tasks.none)
        ⟨s.redis, s.outcomes.drop 1, s.sent⟩ := by
  rw [List.drop_one]
  exact tryCatch_parse h (fun _ hp => by rw [hp]) fun hp => by rw [hp]

theorem getTasksPage_ok (h : s.outcomes.headD true = true) :
    getTasksPage nickname s =
      .ok (storedPage s.redis nickname) ⟨s.redis, s.outcomes.drop 1, s.sent⟩ := by
  rw [List.drop_one]
  exact tryCatch_parse h (fun _ hp => by rw [hp]) fun hp => by rw [hp]

theorem setTasksPage_ok (h : s.outcomes.headD true = true) {x : ℤ} {page : ℕ} (hx : x = page) :
    setTasksPage nickname x s =
      .ok true ⟨s.redis.turned nickname page, s.outcomes.drop 1, s.sent⟩ := by
  rw [List.drop_one, hx]
  unfold setTasksPage
  exact tryCatch_ok (bind_ok (withJedis_ok h))

theorem pageAt_ok {pages : List (List Task)} {x : ℤ} {page : ℕ} (hx : x = page)
    (h : page < pages.length) :
    pageAt pages x s = .ok (pages.getD page []) s := by
  unfold pageAt
  rw [hx, Int.toNat_natCast, List.getD_eq_getElem?_getD, List.getElem?_eq_getElem h]
  rfl

theorem sendMessage_ok (message : String) :
    sendMessage message s = .ok () ⟨s.redis, s.outcomes, s.sent ++ [message]⟩ := rfl

theorem forM_sendMessage {α : Type} (f : α → String) : ∀ (l : List α) (s : Session Text),
    (l.forM fun a => sendMessage (f a)) s = .ok () { s with sent := s.sent ++ l.map f }
  | [], s => by
    show EStateM.Result.ok () s = _
    rw [List.map_nil, List.append_nil]
  | a :: l, s => by
    have hsend : sendMessage (f a) s = .ok () { s with sent := s.sent ++ [f a] } := rfl
    refine (bind_ok hsend).trans ((forM_sendMessage f l _).trans ?_)
    rw [List.map_cons, List.append_assoc]
    rfl

/-- A page of 32 bits is read back. -/
theorem storedPage_turned (redis : Redis Text) {page : ℕ} (h : page < 2 ^ 31) :
    storedPage (redis.turned nickname page) nickname = page := by
  show ((Function.update redis.pages (pageKey nickname) (some (toString (page : ℤ)))
    (pageKey nickname)).bind parseInt).getD 0 = page
  rw [Function.update_self, Option.bind_some, parseInt_toString (by omega) (by omega)]
  rfl

end Operations

/-- **One command.** It stores an existing page of the list, the one it turns to, and sends it. -/
theorem listTasksCmd_eq {json4s : Codec Text} {perPage : ℕ} (hper : 1 ≤ perPage) (sender : String)
    {nickname : String} {state : TaskState} {s : Session Text}
    (h : Browsable json4s nickname state s) (paginate : TasksPagination) :
    ∃ page : ℕ, page < (grouped perPage (listed json4s s.redis nickname state)).length ∧
      (page : ℤ) = turn (grouped perPage (listed json4s s.redis nickname state)).length
        (storedPage s.redis nickname) paginate ∧
      listTasksCmd json4s perPage sender nickname state paginate s =
        .ok () ⟨s.redis.turned nickname page, s.outcomes.drop 5,
          s.sent ++ listing sender nickname state
          (grouped perPage (listed json4s s.redis nickname state)) page⟩ := by
  set pages := grouped perPage (listed json4s s.redis nickname state) with hpages
  have hpos : 0 < pages.length := length_grouped_pos hper h.nonempty
  have hcount : pages.length < 2 ^ 31 := lt_of_le_of_lt (length_grouped_le hper _) h.counted
  obtain ⟨hlo, hhi⟩ := turn_mem hpos (storedPage s.redis nickname) paginate
  obtain ⟨page, hpage⟩ := Int.eq_ofNat_of_zero_le hlo
  rw [hpage] at hhi
  have hlt : page < pages.length := by omega
  refine ⟨page, hlt, hpage.symm, ?_⟩
  have hout := headD_drop h.succeeding
  have hdrop : ∀ k, (s.outcomes.drop k).drop 1 = s.outcomes.drop (k + 1) := fun k => List.drop_drop
  have hget : ∀ (redis : Redis Text) (k : ℕ),
    getTasksPage nickname ⟨redis, s.outcomes.drop k, s.sent⟩ =
      .ok (storedPage redis nickname) ⟨redis, s.outcomes.drop (k + 1), s.sent⟩ := by
    intro redis k
    rw [getTasksPage_ok (hout k), hdrop]
  unfold listTasksCmd
  rw [if_pos h.allowed]
  refine (bind_ok (getTasks_ok (hout 0))).trans
    ((congrFun (if_pos (List.length_pos_iff.mpr h.nonempty)) _).trans ?_)
  refine (bind_ok (hget s.redis 1)).trans ((bind_ok (hget s.redis 2)).trans ?_)
  refine (bind_ok (setTasksPage_ok (hout 3) hpage)).trans ?_
  rw [hdrop]
  refine (bind_ok (pageAt_ok hpage hlt)).trans ((bind_ok (hget _ 4)).trans ?_)
  refine (bind_ok (sendMessage_ok _)).trans ((forM_sendMessage _ _ _).trans ?_)
  rw [storedPage_turned s.redis (by omega), plus_eq (by omega) (by omega)]
  -- the number of pages, from that of the last one
  have hlast : plus ((pages.length : ℤ) - 1) 1 = pages.length := by
    rw [plus_eq (by omega) (by omega)]
    omega
  have hlisting : s.sent ++ listing sender nickname state pages page =
      (s.sent ++ [sender ++ ": Listing " ++ state.toString ++ " tasks " ++
        (if sender ≠ nickname then "for " ++ nickname ++ " " else "") ++ "(page " ++
          toString ((page : ℤ) + 1) ++
        " of " ++ toString (plus ((pages.length : ℤ) - 1) 1) ++ ")."]) ++
      (pages.getD page []).map fun task => sender ++ ": #" ++ toString task.id.toInt ++ " → " ++
        task.content := by
    rw [hlast, listing, List.append_cons]
  rw [hlisting]
  rfl

/-! ### One command after another -/

/-- The pages that commands turn to. -/
def turns (n : ℕ) : ℤ → List TasksPagination → List ℤ
  | _, [] => []
  | current, c :: cs => turn n current c :: turns n (turn n current c) cs

/-- To the end, and not further. -/
theorem turns_next {n : ℕ} (hn : n < 2 ^ 31) : ∀ (k p : ℕ), p < n →
    turns n p (List.replicate k .next) = (List.range k).map fun i =>
      ((min (p + 1 + i) (n - 1) : ℕ) : ℤ)
  | 0, _, _ => rfl
  | k + 1, p, hp => by
    have ih := turns_next hn k (min (p + 1) (n - 1)) (by omega)
    rw [List.replicate_succ, turns, turn_next hn hp, ih, List.range_succ_eq_map,
      List.map_cons, List.map_map]
    refine congrArg _ (List.map_congr_left fun i _ => ?_)
    show ((min (min (p + 1) (n - 1) + 1 + i) (n - 1) : ℕ) : ℤ) =
      ((min (p + 1 + (i + 1)) (n - 1) : ℕ) : ℤ)
    omega

/-- From the first page on. -/
theorem turns_head {n : ℕ} (hn : n < 2 ^ 31) (hpos : 0 < n) (current : ℤ) (k : ℕ) :
    turns n current (.head :: List.replicate k .next) =
      (List.range (k + 1)).map fun i => ((min i (n - 1) : ℕ) : ℤ) := by
  have hturns := turns_next hn k 0 hpos
  rw [turns, List.range_succ_eq_map, List.map_cons, List.map_map]
  refine congr (congrArg _ (by rw [Nat.zero_min]; rfl))
    (hturns.trans (List.map_congr_left fun i _ => ?_))
  show ((min (0 + 1 + i) (n - 1) : ℕ) : ℤ) = ((min (i + 1) (n - 1) : ℕ) : ℤ)
  omega

/-- There and back. -/
theorem turns_next_prev {n p : ℕ} (hn : n < 2 ^ 31) (hp : p + 1 < n) :
    turns n p [.next, .prev] = [p + 1, p].map Nat.cast := by
  have hmin : min (p + 1) (n - 1) = p + 1 := by omega
  rw [turns, turns, turns, turn_next hn (by omega), hmin, turn_prev hn hp, Nat.add_sub_cancel]
  rfl

/-- Redis after some pages. -/
def Redis.turnedAll (redis : Redis Text) (nickname : String) (pages : List ℕ) : Redis Text :=
  pages.foldl (fun redis page => redis.turned nickname page) redis

/-- The last one counts. -/
theorem turnedAll_concat (redis : Redis Text) (nickname : String) (page : ℕ) : ∀ pages : List ℕ,
    redis.turnedAll nickname (pages ++ [page]) = redis.turned nickname page := by
  intro pages
  induction pages generalizing redis with
  | nil => rfl
  | cons p pages ih =>
    refine (ih (redis.turned nickname p)).trans ?_
    unfold Redis.turned
    rw [Function.update_idem]

section Browse

variable {json4s : Codec Text} {perPage : ℕ} {nickname : String} {state : TaskState}

/-- Another page, the same list. -/
theorem Browsable.turned {s : Session Text} (h : Browsable json4s nickname state s) (page k : ℕ)
    (sent : List String) :
    Browsable json4s nickname state ⟨s.redis.turned nickname page, s.outcomes.drop k, sent⟩ :=
  ⟨h.allowed, fun b hb => h.succeeding b (List.mem_of_mem_drop hb), h.nonempty, h.counted⟩

/-- **One command after another.** All turn to existing pages, and send these. -/
theorem browse_eq (hper : 1 ≤ perPage) (sender : String) {pages : List (List Task)} :
    ∀ (cs : List TasksPagination) {s : Session Text}, Browsable json4s nickname state s →
      grouped perPage (listed json4s s.redis nickname state) = pages →
      ∃ ps : List ℕ, ps.map Nat.cast = turns pages.length (storedPage s.redis nickname) cs ∧
        cs.forM (listTasksCmd json4s perPage sender nickname state) s =
          .ok () ⟨s.redis.turnedAll nickname ps, s.outcomes.drop (5 * cs.length),
            s.sent ++ ps.flatMap (listing sender nickname state pages)⟩
  | [], s, _, _ => by
    refine ⟨[], rfl, ?_⟩
    rw [List.flatMap_nil, List.append_nil]
    rfl
  | c :: cs, s, h, hpages => by
    obtain ⟨page, hlt, hturn, hcmd⟩ := listTasksCmd_eq hper sender h c
    rw [hpages] at hlt hturn hcmd
    have hcount : pages.length < 2 ^ 31 := by
      rw [← hpages]
      exact lt_of_le_of_lt (length_grouped_le hper _) h.counted
    obtain ⟨ps, hps, hrun⟩ := browse_eq hper sender cs (h.turned page 5 _) hpages
    rw [storedPage_turned s.redis (by omega)] at hps
    refine ⟨page :: ps, ?_, (bind_ok hcmd).trans (hrun.trans ?_)⟩
    · rw [turns, ← hturn, ← hps]
      rfl
    · rw [List.flatMap_cons, ← List.append_assoc, List.drop_drop, List.length_cons, Nat.mul_succ,
        Nat.add_comm 5]
      rfl

/-- The message of a command. -/
def TasksPagination.message : TasksPagination → String
  | .head => ".head"
  | .tail => ".tail"
  | .next => ".next"
  | .prev => ".prev"

theorem onMessage_paginate (json4s : Codec Text) {m : Message} {paginate : TasksPagination}
    (h : m.message = paginate.message) :
    onMessage json4s m = listTasksCmd json4s tasksPerPage m.sender m.sender .open paginate := by
  have hcommand : m.command = .list m.sender .open paginate := by
    unfold Message.command
    rw [h]
    cases paginate <;> rfl
  unfold onMessage
  rw [hcommand]

/-- The pages, one after another. -/
theorem flatMap_pages {α : Type} (pages : List (List α)) :
    ((List.range pages.length).flatMap fun i => pages.getD i []) = pages.flatten := by
  have hmap : (List.range pages.length).map (fun i => pages.getD i []) = pages := by
    refine List.ext_getElem (by rw [List.length_map, List.length_range]) fun i _ hi => ?_
    rw [List.getElem_map, List.getElem_range, List.getD_eq_getElem?_getD,
      List.getElem?_eq_getElem hi]
    rfl
  rw [List.flatMap_def, hmap]

/-- Different numbers, different pages. -/
theorem map_cast_inj {ps qs : List ℕ} (h : ps.map (Nat.cast : ℕ → ℤ) = qs.map Nat.cast) : ps = qs :=
  (List.map_inj_right fun _ _ hxy => Int.ofNat.inj hxy).mp h

section Pages

variable (hper : 1 ≤ perPage) (sender : String) {s : Session Text}
    (h : Browsable json4s nickname state s)
  {pages : List (List Task)} (hpages : grouped perPage (listed json4s s.redis nickname state) =
    pages)
include hper h hpages

theorem length_pages : 0 < pages.length ∧ pages.length < 2 ^ 31 := by
  subst hpages
  exact ⟨length_grouped_pos hper h.nonempty, lt_of_le_of_lt (length_grouped_le hper _) h.counted⟩

/-- From the first page to the last one, which is then sent again. -/
theorem browse_head (k : ℕ) :
    (TasksPagination.head :: List.replicate k .next).forM
      (listTasksCmd json4s perPage sender nickname state) s =
      .ok () ⟨s.redis.turned nickname (min k (pages.length - 1)), s.outcomes.drop (5 * (k + 1)),
        s.sent ++ (List.range (k + 1)).flatMap fun i =>
          listing sender nickname state pages (min i (pages.length - 1))⟩ := by
  obtain ⟨hpos, hcount⟩ := length_pages hper h hpages
  obtain ⟨ps, hps, hrun⟩ := browse_eq hper sender (.head :: List.replicate k .next) h hpages
  rw [turns_head hcount hpos] at hps
  have hlist : ps = (List.range (k + 1)).map fun i => min i (pages.length - 1) :=
    map_cast_inj (hps.trans (by rw [List.map_map]; rfl))
  rw [hrun, hlist, List.flatMap_map, List.length_cons, List.length_replicate]
  rw [List.range_succ, List.map_append, List.map_singleton, turnedAll_concat]

/-- To the next page and back. -/
theorem browse_next_prev {p : ℕ} (hp : storedPage s.redis nickname = p)
    (hlast : p + 1 < pages.length) :
    [TasksPagination.next, .prev].forM (listTasksCmd json4s perPage sender nickname state) s =
      .ok () ⟨s.redis.turned nickname p, s.outcomes.drop 10,
        s.sent ++ (listing sender nickname state pages (p + 1) ++
          listing sender nickname state pages p)⟩ := by
  obtain ⟨ps, hps, hrun⟩ := browse_eq hper sender [.next, .prev] h hpages
  rw [hp, turns_next_prev (length_pages hper h hpages).2 hlast] at hps
  have hlist : ps = [p + 1] ++ [p] := map_cast_inj hps
  rw [hrun, hlist, turnedAll_concat, List.flatMap_append, List.flatMap_singleton,
    List.flatMap_singleton]
  rfl

end Pages

/-- **Paging through the tasks**. From whatever page is stored,

* every command is run to its end: it stores the number of an existing page, the one it turns to,
  and sends that page;
* `.head`, and `.next` again and again, send the pages in order, to the last one, which is then sent
  again;
* these pages are the list, and there is something on each;
* `.next`, before the last page, and then `.prev` send the next page and the one before again.

The messages of these names are the commands. -/
theorem paging {json4s : Codec Text} {perPage : ℕ} (hper : 1 ≤ perPage) (sender : String)
    {nickname : String} {state : TaskState} {s : Session Text}
    (h : Browsable json4s nickname state s) {pages : List (List Task)}
    (hpages : grouped perPage (listed json4s s.redis nickname state) = pages) :
    (∀ paginate, ∃ page : ℕ, page < pages.length ∧
      (page : ℤ) = turn pages.length (storedPage s.redis nickname) paginate ∧
      listTasksCmd json4s perPage sender nickname state paginate s =
        .ok () ⟨s.redis.turned nickname page, s.outcomes.drop 5,
          s.sent ++ listing sender nickname state pages page⟩) ∧
    (∀ k, (TasksPagination.head :: List.replicate k .next).forM
        (listTasksCmd json4s perPage sender nickname state) s =
      .ok () ⟨s.redis.turned nickname (min k (pages.length - 1)), s.outcomes.drop (5 * (k + 1)),
        s.sent ++ (List.range (k + 1)).flatMap fun i =>
          listing sender nickname state pages (min i (pages.length - 1))⟩) ∧
    ((List.range pages.length).flatMap fun i => pages.getD i []) =
      listed json4s s.redis nickname state ∧
    (∀ i, i < pages.length → pages.getD i [] ≠ []) ∧
    (∀ p : ℕ, storedPage s.redis nickname = p → p + 1 < pages.length →
      [TasksPagination.next, .prev].forM (listTasksCmd json4s perPage sender nickname state) s =
        .ok () ⟨s.redis.turned nickname p, s.outcomes.drop 10,
          s.sent ++ (listing sender nickname state pages (p + 1) ++
            listing sender nickname state pages p)⟩) ∧
    ∀ (m : Message) (paginate : TasksPagination), m.message = paginate.message →
      onMessage json4s m = listTasksCmd json4s tasksPerPage m.sender m.sender .open paginate := by
  refine ⟨fun paginate => ?_, browse_head hper sender h hpages, ?_, fun i hi => ?_,
    fun _ => browse_next_prev hper sender h hpages, fun _ _ => onMessage_paginate json4s⟩
  · have hcmd := listTasksCmd_eq hper sender h paginate
    rw [hpages] at hcmd
    exact hcmd
  · rw [flatMap_pages, ← hpages, flatten_grouped hper]
  · subst hpages
    rw [List.getD_eq_getElem?_getD, List.getElem?_eq_getElem hi]
    exact page_ne_nil hper hi

end Browse

/-- Three tasks, one page too far. -/
def tallica : Session JValue :=
  ⟨⟨fun _ =>
    some (renderTasks ⟨[⟨1, "one", 0, false⟩, ⟨2, "two", 0, false⟩, ⟨3, "three", 0, false⟩], 4⟩),
    fun _ => some "2147483647"⟩, [], []⟩

theorem paging_tallica :
    (TasksPagination.head :: List.replicate 2 .next).forM
        (listTasksCmd Codec.identity 2 "tallica" "tallica" .open) tallica =
      .ok () ⟨tallica.redis.turned "tallica" 1, [],
        ["tallica: Listing open tasks (page 1 of 2).", "tallica: #1 → one", "tallica: #2 → two",
          "tallica: Listing open tasks (page 2 of 2).", "tallica: #3 → three",
          "tallica: Listing open tasks (page 2 of 2).", "tallica: #3 → three"]⟩ :=
  (paging (by decide) "tallica" ⟨by decide, by decide, by decide, by decide⟩ rfl).2.1 2

end ServeD.Notifications.IrcTasks
