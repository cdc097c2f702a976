import LightCone.Proofs.Json.NodeDocuments
import LightCone.Proofs.Provenance
import Mathlib.Data.List.DropRight

/-!
A directory as the map from ids to latest records.

What a directory answers is settled, id by id, by the changes that it has seen. This file

1. defines the changes of a directory (`Change`), the latest record of an id after a list of them
   (`latest`), and the directories that come from a list, a document and changes (`Built`);
2. says what one change does to the record of an id (`find?_change`), and by induction what all
   of them leave of it (`Built.find?_eq_latest`);
3. reads every answer of a directory, and every answer and effect of its next change, off its
   latest records (`Represents`, `Changes`);
4. follows the directory of a running service in the same way (`Service.Run.built`), and concludes
   for all of them, lists and documents being taken whole or not at all
   (`represents_latest_records`).
-/
namespace LightCone

/-- A text is blank just if nothing is left of it when trimmed. -/
theorem blankText_iff {text : String} : blankText text = true ↔ trimBlanks text.toList = [] := by
  rw [blankText, List.all_eq_true, ← List.dropWhile_eq_nil_iff, trimBlanks, List.reverse_eq_nil_iff]
  refine ⟨fun h => by rw [h]; rfl, ?_⟩
  -- the first blanks are gone, so that what is left has none to drop unless it is nothing
  intro h
  have hall : ∀ c ∈ text.toList.dropWhile isBlank, isBlank c = true := fun c hc =>
    List.dropWhile_eq_nil_iff.mp h c (List.mem_reverse.mpr hc)
  rw [← List.dropWhile_idempotent]
  exact List.dropWhile_eq_nil_iff.mpr hall

namespace Directory

/-! ## Changes -/

/-- What changes a directory. -/
inductive Change where
  | upsert (node : Node)
  | remove (id : String)
  | setActive (id : String) (active : Bool) (seen : Instant)

/-- The id that a change is about. -/
def Change.subject : Change → String
  | upsert node => node.id
  | remove id => id
  | setActive id _ _ => id

/-- A directory after a change. A record that is refused leaves it as it is. -/
def change (d : Directory) : Change → Directory
  | .upsert node =>
    match d.upsert node with
    | .ok (_, changed) => changed
    | .error _ => d
  | .remove id => (d.remove id).2
  | .setActive id active seen => (d.setActive id active seen).2

/-- A record as it is after a node was marked active or not. -/
def marked (active : Bool) (seen : Instant) (node : Node) : Node :=
  { node with active := active, lastSeen := seen }

/-- What becomes of the record of an id. -/
def Change.revise (id : String) (record : Option Node) : Change → Option Node
  | upsert node => if node.id = id ∧ trimBlanks id.toList ≠ [] then some node else record
  | remove gone => if gone = id then none else record
  | setActive known active seen => if known = id then record.map (marked active seen) else record

/-- The latest record of an id, the first of the changes first. -/
def latest (changes : List Change) (id : String) : Option Node :=
  changes.foldl (Change.revise id) none

/-- Directories of a list or a document of records, and what changes make of them. -/
inductive Built : Directory → List Change → Prop where
  | ofList {nodes : List Node} {d : Directory} (built : Directory.ofList nodes = .ok d) :
      Built d (nodes.map .upsert)
  | parsed {now : Instant} {text : String} {nodes : List Node} {d : Directory}
      (lists : Json.Lists now text nodes) (built : Json.parseDirectory now text = .ok d) :
      Built d (nodes.map .upsert)
  | change {d : Directory} {changes : List Change} (before : Built d changes) (c : Change) :
      Built (d.change c) (changes ++ [c])

theorem latest_snoc (changes : List Change) (c : Change) (id : String) :
    latest (changes ++ [c]) id = c.revise id (latest changes id) := by
  simp only [latest, List.foldl_append, List.foldl_cons, List.foldl_nil]

section Steps

variable {d : Directory} {id : String} {node : Node} {active : Bool} {seen : Instant} {c : Change}

theorem upsert_of_blank (h : trimBlanks node.id.toList = []) :
    d.upsert node = .error (.invalidNode "node id must be non-empty") ∧ d.change (.upsert node) = d := by
  have hup : d.upsert node = .error (.invalidNode "node id must be non-empty") :=
    if_pos (blankText_iff.mpr h)
  refine ⟨hup, ?_⟩
  rw [change, hup]

theorem upsert_of_not_blank (h : trimBlanks node.id.toList ≠ []) :
    d.upsert node = .ok (d.nodes.find? node.id, d.change (.upsert node)) ∧
      (d.change (.upsert node)).nodes = d.nodes.insert node.id node := by
  have hup : d.upsert node = .ok (d.nodes.find? node.id, ⟨d.nodes.insert node.id node⟩) :=
    if_neg (mt blankText_iff.mp h)
  rw [change, hup]
  exact ⟨rfl, rfl⟩

theorem setActive_of_none (h : d.nodes.find? id = none) :
    d.setActive id active seen = (false, d) := by
  rw [setActive, h]

theorem setActive_of_some (h : d.nodes.find? id = some node) :
    d.setActive id active seen = (true, ⟨d.nodes.insert id (marked active seen node)⟩) := by
  rw [setActive, h]
  rfl

/-- A change revises the record of every id. -/
theorem find?_change (d : Directory) (c : Change) (id : String) :
    (d.change c).nodes.find? id = c.revise id (d.nodes.find? id) := by
  cases c with
  | upsert node =>
    rw [Change.revise]
    by_cases hblank : trimBlanks node.id.toList = []
    · rw [(upsert_of_blank hblank).2, if_neg]
      rintro ⟨rfl, hid⟩
      exact hid hblank
    · rw [(upsert_of_not_blank hblank).2, Table.find?_insert]
      refine if_congr ⟨?_, And.left⟩ rfl rfl
      rintro rfl
      exact ⟨rfl, hblank⟩
  | remove gone =>
    rw [change, remove, Change.revise, Table.find?_erase]
    exact if_congr eq_comm rfl rfl
  | setActive known active seen =>
    rw [change, Change.revise]
    cases hfind : d.nodes.find? known with
    | none =>
      rw [setActive_of_none hfind]
      split
      · next hid =>
        rw [← hid, hfind]
        rfl
      · rfl
    | some node =>
      rw [setActive_of_some hfind, Table.find?_insert]
      refine ite_congr rfl (fun hid => ?_) fun _ => rfl
      rw [← hid, hfind]
      rfl

theorem find?_changes (changes : List Change) (d : Directory) (id : String) :
    (changes.foldl change d).nodes.find? id = changes.foldl (Change.revise id) (d.nodes.find? id) := by
  induction changes generalizing d with
  | nil => rfl
  | cons c rest ih =>
    rw [List.foldl_cons, List.foldl_cons, ih, find?_change]

/-- A change is about one id only. -/
theorem revise_of_ne (h : c.subject ≠ id) (record : Option Node) : c.revise id record = record := by
  cases c with
  | upsert node => exact if_neg fun hid => h hid.1
  | remove gone => exact if_neg h
  | setActive known active seen => exact if_neg h

/-- A record that stands where it belongs: under its own id, which is not blank. -/
def Own (id : String) (record : Option Node) : Prop :=
  ∀ node, record = some node → node.id = id ∧ trimBlanks id.toList ≠ []

theorem Own.revise {record : Option Node} (h : Own id record) (c : Change) :
    Own id (c.revise id record) := by
  intro found hfound
  cases c with
  | upsert node =>
    rw [Change.revise] at hfound
    split at hfound
    · next hid =>
      cases hfound
      exact hid
    · exact h found hfound
  | remove gone =>
    rw [Change.revise] at hfound
    split at hfound
    · cases hfound
    · exact h found hfound
  | setActive known active seen =>
    rw [Change.revise] at hfound
    split at hfound
    · obtain ⟨node, hnode, rfl⟩ := Option.map_eq_some_iff.mp hfound
      exact h node hnode
    · exact h found hfound

theorem own_latest (changes : List Change) (id : String) : Own id (latest changes id) := by
  induction changes using List.reverseRecOn with
  | nil =>
    intro node hnode
    cases hnode
  | append_singleton changes c ih =>
    rw [latest_snoc]
    exact ih.revise c

end Steps

/-! ## Lists and documents -/

/-- Records are stored all, or none of them: the first that is refused is the answer. -/
theorem upsertAll_eq (nodes : List Node) (d : Directory) :
    d.upsertAll nodes = if ∀ n ∈ nodes, trimBlanks n.id.toList ≠ [] then
        .ok ((nodes.map .upsert).foldl change d)
      else .error (.invalidNode "node id must be non-empty") := by
  induction nodes generalizing d with
  | nil => rfl
  | cons node rest ih =>
    rw [upsertAll]
    by_cases hblank : trimBlanks node.id.toList = []
    · rw [(upsert_of_blank hblank).1, if_neg]
      intro hall
      exact hall node List.mem_cons_self hblank
    · simp only [(upsert_of_not_blank hblank).1, ih, List.forall_mem_cons, hblank, ne_eq,
        not_false_eq_true, true_and, List.map_cons, List.foldl_cons]

theorem ofList_eq_ok_iff {nodes : List Node} {d : Directory} : ofList nodes = .ok d ↔
    (∀ n ∈ nodes, trimBlanks n.id.toList ≠ []) ∧ (nodes.map .upsert).foldl change empty = d := by
  rw [ofList, upsertAll_eq]
  split
  · next hall => rw [Except.ok.injEq, and_iff_right hall]
  · next hall => simp only [reduceCtorEq, hall, false_and]

theorem ofList_of_lists {now : Instant} {text : String} {nodes : List Node} {d : Directory}
    (hlists : Json.Lists now text nodes) :
    Json.parseDirectory now text = .ok d ↔ ofList nodes = .ok d := by
  rw [Json.parseDirectory, Json.parse_nodes_iff.mpr hlists]
  cases hlist : ofList nodes <;> simp only [hlist, Except.ok.injEq, reduceCtorEq]

/-- A document gives the directory of the nodes that it lists. -/
theorem parseDirectory_eq_ok_iff {now : Instant} {text : String} {d : Directory} :
    Json.parseDirectory now text = .ok d ↔
      ∃ nodes, Json.Lists now text nodes ∧ ofList nodes = .ok d := by
  refine ⟨?_, ?_⟩
  · intro h
    cases hparse : Json.parse (Json.decodeList (Json.decodeNode now)) text with
    | error fault =>
      rw [Json.parseDirectory, hparse] at h
      cases h
    | ok nodes =>
      have hlists := Json.parse_nodes_iff.mp hparse
      exact ⟨nodes, hlists, (ofList_of_lists hlists).mp h⟩
  · rintro ⟨nodes, hlists, hlist⟩
    exact (ofList_of_lists hlists).mpr hlist

/-- An item of a document that is a record which a directory takes. -/
def TakesItem (now : Instant) (v : Json.Value) : Prop :=
  ∃ node, Json.decodeNode now v = .ok node ∧ trimBlanks node.id.toList ≠ []

/-- A document gives a directory just if each of its items is taken. -/
theorem exists_parseDirectory_iff {now : Instant} {text : String} :
    (∃ d, Json.parseDirectory now text = .ok d) ↔
      ∃ items, Json.readDocument text.toList = (.array items true, true) ∧
        ∀ v ∈ items, TakesItem now v := by
  have htaken (items : List Json.Value) : (∀ v ∈ items, TakesItem now v) ↔ ∃ nodes,
      List.Forall₂ (fun v n => Json.decodeNode now v = .ok n) items nodes ∧
        ∀ n ∈ nodes, trimBlanks n.id.toList ≠ [] := by
    induction items with
    | nil => simp
    | cons v rest ih =>
      rw [List.forall_mem_cons, ih, TakesItem]
      simp only [List.forall₂_cons_left_iff]
      refine ⟨?_, ?_⟩
      · rintro ⟨⟨node, hnode, hid⟩, nodes, hnodes, hids⟩
        exact ⟨node :: nodes, ⟨node, nodes, hnode, hnodes, rfl⟩, List.forall_mem_cons.mpr ⟨hid, hids⟩⟩
      · rintro ⟨_, ⟨node, nodes, hnode, hnodes, rfl⟩, hall⟩
        obtain ⟨hid, hids⟩ := List.forall_mem_cons.mp hall
        exact ⟨⟨node, hnode, hid⟩, nodes, hnodes, hids⟩
  simp only [parseDirectory_eq_ok_iff, ofList_eq_ok_iff, htaken, Json.Lists]
  refine ⟨?_, ?_⟩
  · rintro ⟨_, nodes, ⟨items, hread, hnodes⟩, hids, -⟩
    exact ⟨items, hread, nodes, hnodes, hids⟩
  · rintro ⟨items, hread, nodes, hnodes, hids⟩
    exact ⟨_, nodes, ⟨items, hread, hnodes⟩, hids, rfl⟩

/-- A record with a coordinate out of range is not taken. -/
theorem not_takesItem {now : Instant} {v place : Json.Value} {lat lon alt : Binary64}
    (hplace : (Json.nodeShape now).valueIn v "position" = some place)
    (hshape : Json.coordinatesShape.decode place = .ok (lat, lon, alt))
    (hrange : ¬ Position.InRange lat lon alt) : ¬ TakesItem now v := by
  rintro ⟨node, hnode, -⟩
  obtain ⟨place', hplace', hshape'⟩ := (Json.says_of_decodeNode hnode).position
  rw [hplace] at hplace'
  cases hplace'
  rw [hshape] at hshape'
  cases hshape'
  exact hrange node.position.inRange

/-! ## Answers -/

theorem Built.find?_eq_latest {d : Directory} {changes : List Change} (h : Built d changes)
    (id : String) : d.nodes.find? id = latest changes id := by
  have hlist {nodes : List Node} {d : Directory} (built : Directory.ofList nodes = .ok d) :
      d.nodes.find? id = latest (nodes.map .upsert) id := by
    rw [← (ofList_eq_ok_iff.mp built).2, find?_changes]
    rfl
  induction h with
  | ofList built => exact hlist built
  | parsed lists built => exact hlist ((ofList_of_lists lists).mp built)
  | change _ c ih => rw [find?_change, latest_snoc, ih]

/-- What a directory answers when these are the latest records of the ids. -/
structure Represents (d : Directory) (records : String → Option Node) : Prop where
  get_ok : ∀ id node, d.get id = .ok node ↔ records id = some node
  get_missing : ∀ id, d.get id = .error (.nodeNotFound id) ↔ records id = none
  sorted : (ids d.all).Pairwise (· < ·)
  mem_ids : ∀ id, id ∈ ids d.all ↔ records id ≠ none
  mem_all : ∀ node, node ∈ d.all ↔ records node.id = some node
  active : d.active = d.all.filter Node.active
  named : ∀ node ∈ d.all, trimBlanks node.id.toList ≠ []
  placed : ∀ node ∈ d.all,
    Position.InRange node.position.latitude node.position.longitude node.position.altitude

/-- What the next change of a directory answers and does when these are the latest records. -/
structure Changes (d : Directory) (records : String → Option Node) : Prop where
  upsert : ∀ node, trimBlanks node.id.toList ≠ [] →
    d.upsert node = .ok (records node.id, d.change (.upsert node)) ∧
      (d.change (.upsert node)).get node.id = .ok node
  refused : ∀ node, trimBlanks node.id.toList = [] →
    d.upsert node = .error (.invalidNode "node id must be non-empty") ∧ d.change (.upsert node) = d
  remove : ∀ id, d.remove id = (records id, d.change (.remove id)) ∧
    (d.change (.remove id)).get id = .error (.nodeNotFound id)
  setActive : ∀ id active seen,
    d.setActive id active seen = ((records id).isSome, d.change (.setActive id active seen)) ∧
      (d.change (.setActive id active seen)).get id = (d.get id).map (marked active seen)
  unknown : ∀ id active seen, records id = none → d.change (.setActive id active seen) = d
  others : ∀ c id, c.subject ≠ id → (d.change c).get id = d.get id

section Answers

variable {d d' : Directory} {records : String → Option Node}

theorem get_eq_ok_iff {id : String} {node : Node} :
    d.get id = .ok node ↔ d.nodes.find? id = some node := by
  refine ⟨find?_of_get, fun h => ?_⟩
  rw [get, h]

theorem get_eq_nodeNotFound_iff {id : String} :
    d.get id = .error (.nodeNotFound id) ↔ d.nodes.find? id = none := by
  rw [get]
  cases d.nodes.find? id <;> simp

theorem get_congr {id : String} (h : d'.nodes.find? id = d.nodes.find? id) : d'.get id = d.get id := by
  rw [get, get, h]

theorem represents_of_find? (hfind : ∀ id, d.nodes.find? id = records id)
    (hown : ∀ id, Own id (records id)) : d.Represents records := by
  have hkeyed : d.Keyed := fun id node hnode => (hown id node (hfind id ▸ hnode)).1
  have hall (node : Node) : node ∈ d.all ↔ records node.id = some node := by
    rw [← hfind]
    refine ⟨holds_of_mem_all hkeyed, fun hnode => ?_⟩
    exact List.mem_map.mpr ⟨(node.id, node), Table.find?_eq_some_iff.mp hnode, rfl⟩
  exact {
    get_ok := fun id node => by rw [get_eq_ok_iff, hfind]
    get_missing := fun id => by rw [get_eq_nodeNotFound_iff, hfind]
    sorted := List.pairwise_map.mpr hkeyed.sorted_all
    mem_ids := by
      intro id
      rw [Option.ne_none_iff_exists']
      refine ⟨?_, ?_⟩
      · intro hid
        obtain ⟨node, hnode, rfl⟩ := List.mem_map.mp hid
        exact ⟨node, (hall node).mp hnode⟩
      · rintro ⟨node, hnode⟩
        obtain ⟨rfl, -⟩ := hown id node hnode
        exact List.mem_map_of_mem ((hall node).mpr hnode)
    mem_all := hall
    active := rfl
    named := fun node hnode => (hown node.id node ((hall node).mp hnode)).2
    placed := fun node _ => node.position.inRange }

theorem changes_of_find? (hfind : ∀ id, d.nodes.find? id = records id) : d.Changes records where
  upsert node hid := by
    refine ⟨by rw [(upsert_of_not_blank hid).1, hfind], get_eq_ok_iff.mpr ?_⟩
    rw [find?_change, Change.revise, if_pos ⟨rfl, hid⟩]
  refused node hid := upsert_of_blank hid
  remove id := by
    refine ⟨by rw [← hfind]; rfl, get_eq_nodeNotFound_iff.mpr ?_⟩
    rw [find?_change, Change.revise, if_pos rfl]
  setActive id active seen := by
    have hrevised := find?_change d (.setActive id active seen) id
    rw [Change.revise, if_pos rfl] at hrevised
    rw [get, get, hrevised, ← hfind, change]
    cases hnode : d.nodes.find? id with
    | none =>
      rw [setActive_of_none hnode]
      exact ⟨rfl, rfl⟩
    | some node =>
      rw [setActive_of_some hnode]
      exact ⟨rfl, rfl⟩
  unknown id active seen hnone := by
    rw [change, setActive_of_none ((hfind id).trans hnone)]
  others c id hne := get_congr (by rw [find?_change, revise_of_ne hne])

end Answers

end Directory

/-! ## Directories of services -/

/-- The change of the directory that a request asks for. -/
def Request.change? : Request → Option Directory.Change
  | upsert record => some (.upsert record)
  | remove id => some (.remove id)
  | setActive id active seen => some (.setActive id active seen)
  | _ => none

namespace Service

/-- A request changes the directory as it asks for, and in no other way. -/
theorem Serves.directory_eq {s s' : Service} {r : Request} {history : List Happening}
    {answer : Answer} (h : s.Serves r history answer s') :
    s'.env.directory = r.change?.elim s.env.directory s.env.directory.change := by
  cases hedits : r.editsDirectory with
  | false =>
    rw [h.env_eq hedits]
    cases r <;> first | rfl | cases hedits
  | true =>
    cases h with
    | alone =>
      cases r with
      | upsert node =>
        simp only [serve, upsert, Request.change?, Option.elim, Directory.change]
        cases s.env.directory.upsert node <;> rfl
      | remove id => rfl
      | setActive id active seen => rfl
      | _ => exact absurd hedits Bool.noConfusion
    | _ => exact absurd hedits Bool.noConfusion

/-- In every run the directory has seen the changes that were asked for, in their order. -/
theorem Run.built {clock : Instant → Instant → Prop} {start s : Service} {requests : List Request}
    {history : List Happening} {answers : List Answer} {changes : List Directory.Change}
    (hrun : Run clock start requests history answers s) (hstart : start.env.directory.Built changes) :
    s.env.directory.Built (changes ++ requests.filterMap Request.change?) := by
  induction hrun with
  | nil =>
    rw [List.filterMap_nil, List.append_nil]
    exact hstart
  | @snoc _ _ _ _ _ _ _ r _ serves _ ih =>
    rw [serves.directory_eq, List.filterMap_append, ← List.append_assoc]
    cases hchange : r.change? with
    | none => simpa [hchange] using ih
    | some c => simpa [hchange] using ih.change c

end Service

/-! ## The whole of it -/

namespace Directory

/-- A directory that came about from a list or a document, by insertions, removals and marks,
    answers with the latest records of the ids, each under its own id and in range, and so does
    every change of it. Such is the directory of a service in every run, by the changes that were
    asked for. A list gives a directory just if no id in it is blank, and a document just if all of
    it is an array of records that are taken. A record that is taken says what the node is, and its
    position is in range, as is every position that is made or read. -/
theorem represents_latest_records :
    (∀ d changes, Built d changes →
      d.Represents (latest changes) ∧ d.Changes (latest changes)) ∧
    (∀ start s requests history answers, Service.Run Service.anyTime start requests history answers s →
      ∀ changes, start.env.directory.Built changes →
        s.env.directory.Built (changes ++ requests.filterMap Request.change?)) ∧
    (∀ nodes, (∃ d, ofList nodes = .ok d) ↔ ∀ n ∈ nodes, trimBlanks n.id.toList ≠ []) ∧
    (∀ now text d, Json.parseDirectory now text = .ok d ↔
      ∃ nodes, Json.Lists now text nodes ∧ ofList nodes = .ok d) ∧
    (∀ now text, (∃ d, Json.parseDirectory now text = .ok d) ↔
      ∃ items, Json.readDocument text.toList = (.array items true, true) ∧
        ∀ v ∈ items, TakesItem now v) ∧
    (∀ now v n, Json.decodeNode now v = .ok n → Json.Says now ((Json.nodeShape now).valueIn v) n) ∧
    (∀ now v place lat lon alt, (Json.nodeShape now).valueIn v "position" = some place →
      Json.coordinatesShape.decode place = .ok (lat, lon, alt) → ¬ Position.InRange lat lon alt →
      ¬ TakesItem now v) ∧
    (∀ v lat lon alt, Json.coordinatesShape.decode v = .ok (lat, lon, alt) →
      ((∃ p, Json.decodePosition v = .ok p) ↔ Position.InRange lat lon alt)) ∧
    (∀ lat lon alt, (∃ p, Position.make lat lon alt = .ok p) ↔ Position.InRange lat lon alt) := by
  refine ⟨?built, ?run, ?list, ?document, ?items, ?fields, ?range, ?coordinates, ?position⟩
  case built =>
    intro d changes h
    exact ⟨represents_of_find? h.find?_eq_latest (own_latest changes),
      changes_of_find? h.find?_eq_latest⟩
  case run => exact fun start s requests history answers hrun changes => hrun.built
  case list =>
    intro nodes
    simp only [ofList_eq_ok_iff, exists_and_left, exists_eq', and_true]
  case document => exact fun now text d => parseDirectory_eq_ok_iff
  case items => exact fun now text => exists_parseDirectory_iff
  case fields => exact fun now v n => Json.says_of_decodeNode
  case range => exact fun now v place lat lon alt => not_takesItem
  case coordinates => exact fun v lat lon alt => Json.exists_decodePosition_iff
  case position => exact fun lat lon alt => Position.exists_make_iff

/-- A place on the ground, in whole degrees. -/
def coordinates (latitude longitude : Nat) : Json.Value :=
  Json.object [("latitude", Json.natural latitude), ("longitude", Json.natural longitude)]

/-- A record of a node there. -/
def groundRecord (id : String) (latitude longitude : Nat) : Json.Value :=
  Json.object [("id", .text id), ("position", coordinates latitude longitude)]

/-- A document of one node; a service over it, which adds and marks another one, refuses a third one
    and removes the first; and a record too far in the north. -/
theorem represents_latest_records_two_nodes :
    let upper := TwoNodes.upper 20000000 TwoNodes.high_ok
    let s : Service := ⟨⟨{}, empty.change (.upsert TwoNodes.lower), {}, .epoch⟩, .initial {} none⟩
    let requests : List Request := [.upsert upper, .setActive "b" false .epoch,
      .upsert { upper with id := " " }, .remove "a"]
    let d := (s.serveAll requests).2.env.directory
    let changes : List Change := .upsert TwoNodes.lower :: requests.filterMap Request.change?
    Json.parseDirectory .epoch (Json.Value.array [groundRecord "a" 0 0] true).render =
      .ok s.env.directory ∧
    Built d changes ∧ d.Represents (latest changes) ∧ d.Changes (latest changes) ∧
    d.get "b" = .ok { upper with active := false } ∧ d.get "a" = .error (.nodeNotFound "a") ∧
    Json.Says .epoch ((Json.nodeShape .epoch).valueIn (groundRecord "a" 0 0)) TwoNodes.lower ∧
    (¬ ∃ p, Json.decodePosition (coordinates 91 0) = .ok p) ∧
    ¬ TakesItem .epoch (groundRecord "a" 91 0) := by
  intro upper s requests d changes
  obtain ⟨hbuilt, hruns, -, -, -, hsays, hrange, hposition, -⟩ := represents_latest_records
  have hdecoded : Json.decodeNode .epoch (groundRecord "a" 0 0) = .ok TwoNodes.lower := by decide +kernel
  have hlists : Json.Lists .epoch (Json.Value.array [groundRecord "a" 0 0] true).render
      [TwoNodes.lower] := Json.lists_render (by decide +kernel) (.cons hdecoded .nil)
  have hparsed := (ofList_of_lists hlists).mpr (ofList_eq_ok_iff.mpr ⟨by decide +kernel, rfl⟩)
  obtain ⟨history, hrun⟩ := s.run_serveAll requests
  have hall : Built d changes := hruns _ _ _ _ _ hrun _ (.parsed hlists hparsed)
  obtain ⟨hanswers, hchanges⟩ := hbuilt d changes hall
  have hfar : ¬ Position.InRange (.ofNat 91) (.ofNat 0) 0 := fun h =>
    absurd h.latitude_high (by decide +kernel)
  exact ⟨hparsed, hall, hanswers, hchanges, (hanswers.get_ok _ _).mpr (by decide +kernel),
    (hanswers.get_missing _).mpr (by decide +kernel), hsays _ _ _ hdecoded,
    mt (hposition _ _ _ _ rfl).mp hfar, hrange _ _ _ _ _ _ rfl rfl hfar⟩

end Directory
end LightCone
