import ServeD.Lib.Failures
import ServeD.Lib.Maps
import Mathlib.Data.List.Nodup

/-! # The nodes that Dispel subscribes to

The way of the known nodes from their file to the subscribers: `parseJSON` makes a map from the
entries of the array `knownNodes`, `readNodesData` makes a second map from the first, and `main`
starts a subscriber for every key of the second. The file does not change meanwhile, and the
publisher gets its port.

* `getElem?_parseJSON`: the first map has the uuid of the last entry for every ip;
* `servesNodes_iff`: every known node gets its subscriber exactly when no other node than the local
  one is known: the second map has the local address for every node. -/

namespace ServeD.Dispel.Nodes

open ServeD.Lib.Failures ServeD.Lib.Maps

/-- A `QString`: its UTF-16 code units. `QMap` orders them as lists. -/
abbrev QString := List UInt16

/-- `QMap<QString, QString>`. -/
abbrev QMap := Std.TreeMap QString QString

/-- A literal of the source. -/
def text (s : String) : QString := s.toList.map fun c => c.toNat.toUInt16

/-- The string that a `char*` into a buffer stands for. -/
def cString (s : QString) : QString := s.takeWhile (· ≠ 0)

def DEFAULT_SYSTEM_ADDRESS : QString := text "127.0.0.1"

def DISPEL_NODE_PUBLISHER_PORT : QString := text "12000"

/-! ### The environment -/

/-- What becomes of a failed `JSON_ASSERT`. -/
inductive OnAssert where
  | raises
  | aborts
  deriving DecidableEq, Repr

/-- How the program is built: whether it has its own assertions,
and what those of the JSON library do. -/
structure Build where
  asserts : Bool
  json : OnAssert
  deriving DecidableEq, Repr

/-- How the process dies. -/
inductive Death where
  | fatal
  | assertion
  | uncaught
  deriving DecidableEq, Repr

/-- `assert`. -/
def Build.assert (b : Build) (c : Bool) : Except Death Unit :=
  if b.asserts && !c then .error .assertion else .ok ()

/-- A failed `JSON_ASSERT` that nobody catches. -/
def Build.failed (b : Build) : Death :=
  match b.json with
  | .raises => .uncaught
  | .aborts => .assertion

/-! ### JSON values -/

/-- `Json::Value`. The members of an object are in the order of the file, and their names are C
strings; the value of a number is never looked at. -/
inductive Json where
  | null
  | bool (b : Bool)
  | number
  | str (s : QString)
  | arr (vs : List Json)
  | obj (ms : List (QString × Json))

/-- `value[name]`, `none` for a failed `JSON_ASSERT`: a later member of the same name replaces an
earlier one. -/
def Json.member (name : QString) : Json → Option Json
  | .null => some .null
  | .obj ms => some ((lastValue ms name).getD .null)
  | _ => none

/-- `value.get(index, &v)`, `none` for a failed `JSON_ASSERT`. The default is a pointer, which
becomes a boolean. -/
def Json.get (index : ℕ) : Json → Option Json
  | .null => some (.bool true)
  | .arr vs => some (vs.getD index (.bool true))
  | _ => none

/-- `value.asCString()`. -/
def Json.asCString : Json → Option QString
  | .str s => some (cString s)
  | _ => none

/-! ### The first map -/

/-- `ip` and `uuid` of an entry. -/
def readEntry (entry : Json) : Option (QString × QString) := do
  let ip ← (← entry.get 0).asCString
  let uuid ← (← entry.get 1).asCString
  return (ip, uuid)

/-- One turn of the loop of `parseJSON`. -/
def insertEntry (b : Build) (m : QMap) (entry : Json) : Except Death QMap :=
  match readEntry entry, b.json with
  | some p, _ => .ok (m.insert p.1 p.2)
  | none, .raises => .ok m
  | none, .aborts => .error .assertion

section

variable (reader : QString → Option Json) (b : Build) (contents : QString)

/-- `parseJSON`. A value that is null counts as an array. -/
def parseJSON : Except Death QMap :=
  match reader (cString contents) with
  | none => .ok ∅
  | some root =>
    match root.member (text "knownNodes") with
    | none => .error b.failed
    | some (.arr entries) => entries.foldlM (insertEntry b) ∅
    | some _ => .ok ∅

/-- `allKnownNodeUUIDs`: `logFatal` aborts. -/
def allKnownNodeUUIDs : Except Death QMap := do
  let nodes ← parseJSON reader b contents
  if nodes.isEmpty then .error .fatal else return nodes

/-- `currentNodeUUID`. -/
def currentNodeUUID : Except Death QString := do
  let nodeID ← parseJSON reader b contents
  if nodeID.isEmpty then .error .fatal
  else return nodeID.getD DEFAULT_SYSTEM_ADDRESS DEFAULT_SYSTEM_ADDRESS

/-! ### The second map and the subscribers -/

/-- The values of a map, in the order of their keys. -/
def values (m : QMap) : List QString := m.toList.map Prod.snd

/-- `readNodesData`. -/
def readNodesData (uid : ℕ) : Except Death QMap :=
  if uid = 0 then do
    let nodes ← allKnownNodeUUIDs reader b contents
    return (values nodes).foldl (fun m node => m.insert DEFAULT_SYSTEM_ADDRESS node) ∅
  else
    .ok ((Std.TreeMap.empty.insert (text "192.168.0.9") (text "\x7bdevel-node-uuid\x7d")).insert
      (text "192.168.0.10") (text "\x7bdevel-node-uuid\x7d"))

/-- The address of a node. -/
def nodeAddress (ip : QString) : QString :=
  text "tcp://" ++ ip ++ text ":" ++ DISPEL_NODE_PUBLISHER_PORT

/-- `new Publisher`. -/
def publisher (channel : QString) : Except Death Unit := b.assert (!channel.isEmpty)

/-- `new Subscriber` and `start`, with the address and the channel that it gets. -/
def subscriber (address channel : QString) : Except Death (QString × QString) := do
  b.assert (!address.isEmpty)
  b.assert (!channel.isEmpty)
  let nodeUuid ← currentNodeUUID reader b contents
  b.assert (!nodeUuid.isEmpty)
  return (address, channel)

/-- `main`, from the publisher on, with the subscribers that it has when it enters the
event loop. -/
def main (uid : ℕ) : Except Death (List (QString × QString)) := do
  let nodeID ← currentNodeUUID reader b contents
  publisher b nodeID
  let map ← readNodesData reader b contents uid
  map.keys.mapM fun ip => subscriber reader b contents (nodeAddress ip) (map.getD ip [])

/-- The subscribers that are there: none if the process died. -/
def subscribers (uid : ℕ) : List (QString × QString) :=
  match main reader b contents uid with
  | .ok subs => subs
  | .error _ => []

/-! ### What it should do -/

/-- The entries of the array `knownNodes`; a file that is not JSON with such an array has none. -/
def entries : List Json :=
  match reader (cString contents) with
  | some (.obj ms) =>
    match lastValue ms (text "knownNodes") with
    | some (.arr vs) => vs
    | _ => []
  | _ => []

/-- An entry `[ip, uuid]`. -/
def pair : Json → Option (QString × QString)
  | .arr (.str ip :: .str uuid :: _) => some (cString ip, cString uuid)
  | _ => none

/-- The known nodes of a file. -/
def knownNodes : List (QString × QString) := (entries reader contents).filterMap pair

/-- There is one subscriber for each ip that has a uuid, on its address and with its uuid. -/
structure Serves (subs : List (QString × QString)) (uuid : QString → Option QString) : Prop where
  mem_iff : ∀ a c, (a, c) ∈ subs ↔ ∃ ip, a = nodeAddress ip ∧ uuid ip = some c
  nodup : (subs.map Prod.fst).Nodup

/-- Dispel, run by root, subscribes to every known node, with the uuid of its last entry. -/
def ServesNodes : Prop :=
  Serves (subscribers reader b contents 0) (lastValue (knownNodes reader contents))

/-- No entry stops the loop of `parseJSON`. -/
def Reads : Prop :=
  b.json = .raises ∨ ∀ e ∈ entries reader contents, (pair e).isSome

end

/-! ### The first map -/

theorem readEntry_eq_pair (e : Json) : readEntry e = pair e := by
  rcases e with _ | _ | _ | _ | vs | _
  case arr =>
    rcases vs with _ | ⟨v, _ | ⟨w, vs⟩⟩
    · rfl
    · rcases v with _ | _ | _ | _ | _ | _ <;> rfl
    · rcases v with _ | _ | _ | _ | _ | _ <;> rcases w with _ | _ | _ | _ | _ | _ <;> rfl
  all_goals rfl

theorem foldlM_insertEntry (b : Build) (es : List Json) (m : QMap) :
    es.foldlM (insertEntry b) m =
      if b.json = .raises ∨ ∀ e ∈ es, (pair e).isSome then .ok (insertAll m (es.filterMap pair))
      else .error .assertion := by
  induction es generalizing m with
  | nil => simp [insertAll, pure, Except.pure]
  | cons e es ih =>
    rw [List.foldlM_cons]
    rcases h : pair e with _ | p
    · rcases hb : b.json with _ | _
      · have he : insertEntry b m e = .ok m := by
          unfold insertEntry; rw [readEntry_eq_pair, h, hb]
        rw [he, if_pos (.inl rfl), List.filterMap_cons_none h]
        exact (ih m).trans (if_pos (.inl hb))
      · have he : insertEntry b m e = .error .assertion := by
          unfold insertEntry; rw [readEntry_eq_pair, h, hb]
        rw [he, if_neg (by simp [h])]
        rfl
    · have he : insertEntry b m e = .ok (m.insert p.1 p.2) := by
        unfold insertEntry; rw [readEntry_eq_pair, h]
      rw [he, List.filterMap_cons_some h]
      refine (ih (m.insert p.1 p.2)).trans ?_
      simp [h, insertAll]

/-- `parseJSON` reads the known nodes into its map, or the process dies there: at an entry that
stops the loop, or at a file that has no known nodes. -/
theorem parseJSON_cases (reader : QString → Option Json) (b : Build) (contents : QString) :
    (∃ d, parseJSON reader b contents = .error d ∧
      (knownNodes reader contents = [] ∨ ¬ Reads reader b contents)) ∨
    (Reads reader b contents ∧
      parseJSON reader b contents = .ok (insertAll ∅ (knownNodes reader contents))) := by
  unfold parseJSON knownNodes Reads entries
  rcases reader (cString contents) with _ | root
  · exact .inr ⟨.inr (by simp), rfl⟩
  · rcases root with _ | _ | _ | _ | _ | ms
    case obj =>
      simp only [Json.member]
      rcases lastValue ms (text "knownNodes") with _ | v
      · exact .inr ⟨.inr (by simp), rfl⟩
      · rcases v with _ | _ | _ | _ | es | _
        case arr =>
          simp only [Option.getD_some, foldlM_insertEntry]
          split_ifs with h
          · exact .inr ⟨h, rfl⟩
          · exact .inl ⟨_, rfl, .inr h⟩
        all_goals exact .inr ⟨.inr (by simp), rfl⟩
    case null => exact .inr ⟨.inr (by simp), rfl⟩
    all_goals exact .inl ⟨_, rfl, .inl rfl⟩

section

variable {reader : QString → Option Json} {b : Build} {contents : QString}

/-- The map of `parseJSON` has the uuid of the last entry for every ip. -/
theorem getElem?_parseJSON {m : QMap} (h : parseJSON reader b contents = .ok m) (ip : QString) :
    m[ip]? = lastValue (knownNodes reader contents) ip := by
  rcases parseJSON_cases reader b contents with ⟨d, hd, -⟩ | ⟨-, hm⟩
  · rw [hd] at h; cases h
  · rw [hm] at h
    obtain rfl := Except.ok.inj h
    exact getElem?_insertAll_empty _ ip

/-! ### The loop of main -/

theorem nodeAddress_injective : Function.Injective nodeAddress := by
  intro ip ip' h
  simpa [nodeAddress] using h

theorem serves_nil {uuid : QString → Option QString} : Serves [] uuid ↔ ∀ ip, uuid ip = none := by
  constructor
  · intro h ip
    rcases hu : uuid ip with _ | c
    · rfl
    · have := (h.mem_iff (nodeAddress ip) c).mpr ⟨ip, rfl, hu⟩
      simp at this
  · intro h
    refine ⟨fun a c => ?_, by simp⟩
    simp [h]

/-- The subscribers determine which nodes they serve. -/
theorem Serves.eq {subs : List (QString × QString)} {f g : QString → Option QString}
    (hf : Serves subs f) (hg : Serves subs g) : f = g := by
  funext ip
  apply Option.ext
  intro c
  have key : ∀ {f : QString → Option QString}, Serves subs f →
      ((nodeAddress ip, c) ∈ subs ↔ f ip = some c) := by
    intro f hf
    rw [hf.mem_iff]
    constructor
    · rintro ⟨ip', ha, hu⟩
      rw [nodeAddress_injective ha]
      exact hu
    · intro hu
      exact ⟨ip, rfl, hu⟩
  rw [← key hf, key hg]

theorem serves_keys (m : QMap) :
    Serves (m.keys.map fun ip => (nodeAddress ip, m.getD ip [])) (fun ip => m[ip]?) := by
  constructor
  · intro a c
    simp only [List.mem_map, Std.TreeMap.mem_keys, Prod.mk.injEq, Std.TreeMap.getD_eq_getD_getElem?]
    constructor
    · rintro ⟨ip, hm, rfl, rfl⟩
      obtain ⟨v, hv⟩ := exists_getElem? hm
      exact ⟨ip, rfl, by rw [hv]; rfl⟩
    · rintro ⟨ip, rfl, hv⟩
      exact ⟨ip, mem_of_getElem? hv, rfl, by rw [hv]; rfl⟩
  · rw [List.map_map]
    have hn : m.keys.Nodup := Std.TreeMap.nodup_keys
    exact hn.map nodeAddress_injective

theorem subscriber_eq {a c : QString} {s : QString × QString}
    (h : subscriber reader b contents a c = .ok s) : s = (a, c) := by
  obtain ⟨_, -, h⟩ := bind_eq_ok.mp h
  obtain ⟨_, -, h⟩ := bind_eq_ok.mp h
  obtain ⟨_, -, h⟩ := bind_eq_ok.mp h
  obtain ⟨_, -, h⟩ := bind_eq_ok.mp h
  exact (Except.ok.inj h).symm

/-- Whatever map `main` has, it gives every ip of it a subscriber of its own, or dies. -/
theorem main_serves {uid : ℕ} {subs : List (QString × QString)}
    (h : main reader b contents uid = .ok subs) :
    ∃ m, readNodesData reader b contents uid = .ok m ∧ Serves subs (fun ip => m[ip]?) := by
  obtain ⟨_, -, h⟩ := bind_eq_ok.mp h
  obtain ⟨_, -, h⟩ := bind_eq_ok.mp h
  obtain ⟨m, hm, h⟩ := bind_eq_ok.mp h
  have hs := eq_map_of_mapM (g := fun ip => (nodeAddress ip, m.getD ip []))
    (fun ip s hs => subscriber_eq hs) h
  exact ⟨m, hm, hs ▸ serves_keys m⟩

/-! ### The second map -/

theorem mem_values {m : QMap} {v : QString} : v ∈ values m ↔ ∃ ip : QString, m[ip]? = some v := by
  simp only [values, List.mem_map, Prod.exists, exists_eq_right,
    Std.TreeMap.mem_toList_iff_getElem?_eq_some]

/-- `readNodesData` puts all nodes under one ip. -/
theorem readNodesData_root {m : QMap} (hp : parseJSON reader b contents = .ok m)
    (hm : m.isEmpty = false) : readNodesData reader b contents 0 =
      .ok (insertAll ∅ ((values m).map fun v => (DEFAULT_SYSTEM_ADDRESS, v))) := by
  have hn : allKnownNodeUUIDs reader b contents = .ok m := by
    simp [allKnownNodeUUIDs, hp, hm, bind, Except.bind, pure, Except.pure]
  simp only [readNodesData, hn, insertAll, List.foldl_map]
  rfl

/-- The second map has the nodes of the first exactly when the first has no ip but the local one. -/
theorem lastValue_values_iff {m : QMap} :
    (∀ ip : QString, lastValue ((values m).map fun v => (DEFAULT_SYSTEM_ADDRESS, v)) ip = m[ip]?) ↔
      ∀ ip ∈ m, ip = DEFAULT_SYSTEM_ADDRESS := by
  constructor
  · intro h ip hip
    obtain ⟨v, hv⟩ := exists_getElem? hip
    have hl := mem_of_lastValue ((h ip).trans hv)
    obtain ⟨_, -, hw⟩ := List.mem_map.mp hl
    exact (Prod.mk.inj hw).1.symm
  · intro h ip
    rcases hv : lastValue ((values m).map fun v => (DEFAULT_SYSTEM_ADDRESS, v)) ip with _ | v
    · rcases hw : m[ip]? with _ | w
      · rfl
      · have hip := h ip (mem_of_getElem? hw)
        have hmem : w ∈ values m := mem_values.mpr ⟨ip, hw⟩
        exact absurd hip.symm (lastValue_eq_none_iff.mp hv _ (List.mem_map_of_mem hmem))
    · -- the value comes from some ip, which is the local one as well
      obtain ⟨v', hv', he⟩ := List.mem_map.mp (mem_of_lastValue hv)
      obtain ⟨rfl, rfl⟩ := Prod.mk.inj he
      obtain ⟨ip', hip'⟩ := mem_values.mp hv'
      rw [← h ip' (mem_of_getElem? hip'), hip']

/-! ### The whole way -/

theorem assert_ok {c : Bool} (h : b.asserts = true → c = true) : b.assert c = .ok () := by
  unfold Build.assert
  rw [if_neg]
  intro hc
  obtain ⟨hb, hn⟩ := Bool.and_eq_true_iff.mp hc
  simp [h hb] at hn

theorem currentNodeUUID_eq {m : QMap} {u : QString} (hp : parseJSON reader b contents = .ok m)
    (hu : m[DEFAULT_SYSTEM_ADDRESS]? = some u) : currentNodeUUID reader b contents = .ok u := by
  have hm : m.isEmpty = false :=
    Std.TreeMap.isEmpty_eq_false_iff_exists_mem.mpr ⟨_, mem_of_getElem? hu⟩
  have hg : m.getD DEFAULT_SYSTEM_ADDRESS DEFAULT_SYSTEM_ADDRESS = u := by
    rw [Std.TreeMap.getD_eq_getD_getElem?, hu]
    rfl
  simp [currentNodeUUID, hp, hm, hg, bind, Except.bind, pure, Except.pure]

theorem subscriber_ok {ip u : QString} (hn : currentNodeUUID reader b contents = .ok u)
    (hb : b.asserts = true → u ≠ []) :
    subscriber reader b contents (nodeAddress ip) u = .ok (nodeAddress ip, u) := by
  have ha : b.assert (!(nodeAddress ip).isEmpty) = .ok () :=
    assert_ok fun _ => by simp [nodeAddress, text]
  have hu : b.assert (!u.isEmpty) = .ok () := assert_ok fun h => by simpa using hb h
  simp only [subscriber, ha, hu, hn, bind, Except.bind]
  rfl

/-- With the local node alone `main` gets to the end of its loop, unless it asserts that the uuid is
not empty and it is. -/
theorem main_local {m : QMap} {u : QString} (hp : parseJSON reader b contents = .ok m)
    (hl : ∀ ip ∈ m, ip = DEFAULT_SYSTEM_ADDRESS) (hu : m[DEFAULT_SYSTEM_ADDRESS]? = some u) :
    (∃ subs, main reader b contents 0 = .ok subs) ↔ (b.asserts = true → u ≠ []) := by
  have hn := currentNodeUUID_eq hp hu
  constructor
  · rintro ⟨subs, h⟩ hb rfl
    obtain ⟨_, hn', h⟩ := bind_eq_ok.mp h
    obtain rfl := Except.ok.inj (hn.symm.trans hn')
    obtain ⟨_, ha, -⟩ := bind_eq_ok.mp h
    simp [publisher, Build.assert, hb] at ha
  · intro hb
    have hm : m.isEmpty = false :=
      Std.TreeMap.isEmpty_eq_false_iff_exists_mem.mpr ⟨_, mem_of_getElem? hu⟩
    have ha : publisher b u = .ok () := assert_ok fun h => by simpa using hb h
    refine ⟨_, bind_eq_ok.mpr ⟨u, hn, bind_eq_ok.mpr ⟨(), ha, bind_eq_ok.mpr
      ⟨_, readNodesData_root hp hm, mapM_eq_ok (g := fun ip => (nodeAddress ip, u)) ?_⟩⟩⟩⟩
    intro ip hip
    have hs : ∀ k : QString, (insertAll ∅ ((values m).map fun v =>
      (DEFAULT_SYSTEM_ADDRESS, v)))[k]? = m[k]? :=
      fun k => (getElem?_insertAll_empty _ k).trans (lastValue_values_iff.mpr hl k)
    rw [Std.TreeMap.mem_keys, Std.TreeMap.mem_iff_isSome_getElem?, hs,
      ← Std.TreeMap.mem_iff_isSome_getElem?] at hip
    obtain rfl := hl ip hip
    rw [Std.TreeMap.getD_eq_getD_getElem?, hs, hu]
    exact subscriber_ok hn hb

theorem subscribers_of_error {d : Death} {uid : ℕ} (h : main reader b contents uid = .error d) :
    subscribers reader b contents uid = [] := by
  unfold subscribers
  rw [h]

theorem main_of_parseJSON_error {d : Death} {uid : ℕ} (h : parseJSON reader b contents = .error d) :
    main reader b contents uid = .error d := by
  have hn : currentNodeUUID reader b contents = .error d := by
    unfold currentNodeUUID
    rw [h]
    rfl
  unfold main
  rw [hn]
  rfl

theorem main_of_isEmpty {m : QMap} {uid : ℕ} (hp : parseJSON reader b contents = .ok m)
    (hm : m.isEmpty = true) : main reader b contents uid = .error .fatal := by
  have hn : currentNodeUUID reader b contents = .error .fatal := by
    simp [currentNodeUUID, hp, hm, bind, Except.bind]
  unfold main
  rw [hn]
  rfl

/-- If the process dies, that is right exactly when no node is known. -/
theorem serves_of_error {d : Death} (h : main reader b contents 0 = .error d) :
    ServesNodes reader b contents ↔ knownNodes reader contents = [] := by
  unfold ServesNodes
  rw [subscribers_of_error h, serves_nil, List.eq_nil_iff_forall_not_mem]
  constructor
  · intro hn p hp
    exact lastValue_eq_none_iff.mp (hn p.1) p hp rfl
  · intro hn ip
    exact lastValue_eq_none_iff.mpr fun p hp => absurd hp (hn p)

/-- If it does not, the nodes of the first map have to be in the second. -/
theorem serves_of_ok {m : QMap} {subs : List (QString × QString)}
    (hp : parseJSON reader b contents = .ok m) (hm : m.isEmpty = false)
    (h : main reader b contents 0 = .ok subs) :
    ServesNodes reader b contents ↔ ∀ ip ∈ m, ip = DEFAULT_SYSTEM_ADDRESS := by
  obtain ⟨s, hs, hserves⟩ := main_serves h
  obtain rfl := Except.ok.inj ((readNodesData_root hp hm).symm.trans hs)
  have hsubs : subscribers reader b contents 0 = subs := by
    unfold subscribers
    rw [h]
  rw [← lastValue_values_iff]
  unfold ServesNodes
  rw [hsubs]
  simp only [getElem?_insertAll_empty] at hserves
  constructor
  · intro hk ip
    rw [getElem?_parseJSON hp]
    exact congrFun (hserves.eq hk) ip
  · intro hk
    convert hserves using 1
    funext ip
    rw [hk, getElem?_parseJSON hp]

/-- The local node alone is served, unless the program asserts that its uuid is not
empty and it is. -/
theorem servesNodes_local (hp : parseJSON reader b contents =
      .ok (insertAll ∅ (knownNodes reader contents)))
    (hk : knownNodes reader contents ≠ [])
    (hl : ∀ p ∈ knownNodes reader contents, p.1 = DEFAULT_SYSTEM_ADDRESS) :
    ServesNodes reader b contents ↔
      (b.asserts = true → lastValue (knownNodes reader contents) DEFAULT_SYSTEM_ADDRESS ≠
        some []) := by
  obtain ⟨p, hmem⟩ := List.exists_mem_of_ne_nil _ hk
  obtain ⟨u, hu⟩ := exists_lastValue hmem
  rw [hl p hmem] at hu
  have hlocal := (forall_mem_insertAll (P := fun ip => ip = DEFAULT_SYSTEM_ADDRESS)).mpr hl
  have hmain := main_local hp hlocal ((getElem?_insertAll_empty _ _).trans hu)
  rw [hu, ne_eq, Option.some_inj, ← ne_eq, ← hmain]
  rcases h : main reader b contents 0 with d | subs
  · rw [serves_of_error h]
    exact iff_of_false hk (by simp)
  · rw [serves_of_ok hp (isEmpty_insertAll hk) h]
    exact iff_of_true hlocal ⟨subs, rfl⟩

/-- Another node is not. -/
theorem not_servesNodes (hp : parseJSON reader b contents =
      .ok (insertAll ∅ (knownNodes reader contents)))
    (hl : ¬ ∀ p ∈ knownNodes reader contents, p.1 = DEFAULT_SYSTEM_ADDRESS) :
    ¬ ServesNodes reader b contents := by
  have hk : knownNodes reader contents ≠ [] := by
    intro hk
    rw [hk] at hl
    simp at hl
  rcases h : main reader b contents 0 with d | subs
  · rw [serves_of_error h]
    exact hk
  · rw [serves_of_ok hp (isEmpty_insertAll hk) h, forall_mem_insertAll]
    exact hl

/-- **Dispel subscribes to every known node exactly when there is none, or only the local one**:
every entry that is read has the address of the local node, whose uuid is not empty if the program
asserts that, and no entry stops the program. -/
theorem servesNodes_iff (reader : QString → Option Json) (b : Build) (contents : QString) :
    ServesNodes reader b contents ↔
      knownNodes reader contents = [] ∨
        (Reads reader b contents ∧
          (∀ p ∈ knownNodes reader contents, p.1 = DEFAULT_SYSTEM_ADDRESS) ∧
          (b.asserts = true → lastValue (knownNodes reader contents) DEFAULT_SYSTEM_ADDRESS ≠
            some [])) := by
  rcases parseJSON_cases reader b contents with ⟨d, hp, h⟩ | ⟨hr, hp⟩
  · rw [serves_of_error (main_of_parseJSON_error hp)]
    refine ⟨.inl, ?_⟩
    rintro (hk | ⟨hr, -⟩)
    · exact hk
    · exact h.resolve_right (not_not_intro hr)
  by_cases hk : knownNodes reader contents = []
  · rw [serves_of_error (main_of_isEmpty hp (by rw [hk]; rfl))]
    exact iff_of_true hk (.inl hk)
  by_cases hl : ∀ p ∈ knownNodes reader contents, p.1 = DEFAULT_SYSTEM_ADDRESS
  · rw [servesNodes_local hp hk hl]
    refine ⟨fun h => .inr ⟨hr, hl, h⟩, ?_⟩
    rintro (h | ⟨-, -, h⟩)
    · exact absurd h hk
    · exact h
  · refine iff_of_false (not_servesNodes hp hl) ?_
    rintro (h | ⟨-, h, -⟩)
    · exact hk h
    · exact hl h

end

/-! ### Two nodes -/

/-- The example for the file that `dispel.cc` gives. -/
def exampleFile : QString :=
  text "\x7b\n  \"knownNodes\": [\n" ++
  text "      [\"127.0.0.1\", \"\x7b40a8e817-57de-4e5e-9806-2c1338a5079b\x7d\"],\n" ++
  text "      [\"192.168.0.9\", \"\x7b40a8e817-57de-4e5e-9806-2c1338a5079b\x7d\"]\n" ++
  text "  ]\n\x7d\n\n"

def exampleUuid : QString := text "\x7b40a8e817-57de-4e5e-9806-2c1338a5079b\x7d"

/-- What a JSON reader makes of the example. -/
def exampleReader (s : QString) : Option Json :=
  if s = exampleFile then
    some (.obj [(text "knownNodes", .arr
      [.arr [.str (text "127.0.0.1"), .str exampleUuid],
        .arr [.str (text "192.168.0.9"), .str exampleUuid]])])
  else none

/-- The second node of the example gets no subscriber. -/
theorem not_servesNodes_example : ¬ ServesNodes exampleReader ⟨false, .raises⟩ exampleFile := by
  intro h
  have hn : (nodeAddress (text "192.168.0.9"), exampleUuid) ∉
      subscribers exampleReader ⟨false, .raises⟩ exampleFile 0 := by decide +kernel
  have hu : lastValue (knownNodes exampleReader exampleFile) (text "192.168.0.9") =
    some exampleUuid := by
    decide +kernel
  exact hn ((h.mem_iff _ _).mpr ⟨_, rfl, hu⟩)

end ServeD.Dispel.Nodes
