import LightCone.Proofs.Json.Fields

/-!
Documents that list nodes.

A document is taken apart as a whole, and what it lists as nodes are the records that its items say.
This file

1. says when three numbers are a position (`Position.exists_make_iff`), and a value with them one
   (`exists_decodePosition_iff`);
2. takes a shape that has made a record apart into its fields (`Shape.exists_build`,
   `Shape.build_seq_eq_ok`), and with it what a node is read from (`Says`, `says_of_decodeNode`);
3. says which texts list which nodes (`Lists`, `parse_nodes_iff`).
-/
namespace LightCone

/-- Two steps succeed just if the first does, and the second with its result. -/
theorem bind_eq_ok_iff {ε α β : Type} {x : Except ε α} {f : α → Except ε β} {b : β} :
    (x >>= f) = .ok b ↔ ∃ a, x = .ok a ∧ f a = .ok b := by
  cases x with
  | error fault =>
    refine ⟨fun h => (nomatch h), ?_⟩
    rintro ⟨_, h, -⟩
    cases h
  | ok a =>
    refine ⟨fun h => ⟨a, rfl, h⟩, ?_⟩
    rintro ⟨_, h, hf⟩
    cases h
    exact hf

/-! ## Positions -/

/-- Whether three numbers are degrees north and east and a height. -/
structure Position.InRange (latitude longitude altitude : Binary64) : Prop where
  latitude_finite : latitude.isFinite = true
  latitude_low : -90 ≤ latitude
  latitude_high : latitude ≤ 90
  longitude_finite : longitude.isFinite = true
  longitude_low : -180 ≤ longitude
  longitude_high : longitude ≤ 180
  altitude_finite : altitude.isFinite = true
  altitude_low : 0 ≤ altitude

theorem Binary64.within_iff {x low high : Binary64} :
    x.within low high = true ↔ x.isFinite = true ∧ low ≤ x ∧ x ≤ high := by
  rw [within, Bool.and_eq_true, Bool.and_eq_true, decide_eq_true_eq, decide_eq_true_eq, and_assoc]

theorem Binary64.isMagnitude_iff {x : Binary64} : x.isMagnitude = true ↔ x.isFinite = true ∧ 0 ≤ x := by
  rw [isMagnitude, Bool.and_eq_true, decide_eq_true_eq]

namespace Position

variable {lat lon alt : Binary64}

theorem inRange_iff : InRange lat lon alt ↔
    lat.within (-90) 90 = true ∧ lon.within (-180) 180 = true ∧ alt.isMagnitude = true := by
  rw [Binary64.within_iff, Binary64.within_iff, Binary64.isMagnitude_iff]
  refine ⟨?_, ?_⟩
  · rintro ⟨hlat, hlat₀, hlat₁, hlon, hlon₀, hlon₁, halt, halt₀⟩
    exact ⟨⟨hlat, hlat₀, hlat₁⟩, ⟨hlon, hlon₀, hlon₁⟩, halt, halt₀⟩
  · rintro ⟨⟨hlat, hlat₀, hlat₁⟩, ⟨hlon, hlon₀, hlon₁⟩, halt, halt₀⟩
    exact ⟨hlat, hlat₀, hlat₁, hlon, hlon₀, hlon₁, halt, halt₀⟩

/-- Every position has its coordinates in range. -/
theorem inRange (p : Position) : InRange p.latitude p.longitude p.altitude :=
  inRange_iff.mpr ⟨p.latitude_ok, p.longitude_ok, p.altitude_ok⟩

theorem make_of_inRange (h : InRange lat lon alt) :
    ∃ p, make lat lon alt = .ok p ∧ p.latitude = lat ∧ p.longitude = lon ∧ p.altitude = alt := by
  obtain ⟨hlat, hlon, halt⟩ := inRange_iff.mp h
  exact ⟨⟨lat, lon, alt, hlat, hlon, halt⟩, by rw [make, dif_pos hlat, dif_pos hlon, dif_pos halt],
    rfl, rfl, rfl⟩

theorem coordinates_of_make {p : Position} (h : make lat lon alt = .ok p) :
    p.latitude = lat ∧ p.longitude = lon ∧ p.altitude = alt := by
  unfold make at h
  split at h
  · split at h
    · split at h
      · cases h
        exact ⟨rfl, rfl, rfl⟩
      · cases h
    · cases h
  · cases h

/-- Three numbers in range make a position, others do not. -/
theorem exists_make_iff : (∃ p, make lat lon alt = .ok p) ↔ InRange lat lon alt := by
  refine ⟨?_, fun h => (make_of_inRange h).imp fun p hp => hp.1⟩
  rintro ⟨p, hp⟩
  obtain ⟨rfl, rfl, rfl⟩ := coordinates_of_make hp
  exact p.inRange

end Position

namespace Json

theorem decodePosition_eq_ok_iff {v : Value} {p : Position} : decodePosition v = .ok p ↔
    ∃ lat lon alt, coordinatesShape.decode v = .ok (lat, lon, alt) ∧
      Position.make lat lon alt = .ok p := by
  unfold decodePosition
  rw [bind_eq_ok_iff]
  refine ⟨?_, ?_⟩
  · rintro ⟨⟨lat, lon, alt⟩, hshape, h⟩
    refine ⟨lat, lon, alt, hshape, ?_⟩
    dsimp only at h
    split at h
    · next hmake =>
      cases h
      exact hmake
    · cases h
  · rintro ⟨lat, lon, alt, hshape, hmake⟩
    refine ⟨(lat, lon, alt), hshape, ?_⟩
    dsimp only
    rw [hmake]

/-- A value with three coordinates is a position just if these are in range. -/
theorem exists_decodePosition_iff {v : Value} {lat lon alt : Binary64}
    (h : coordinatesShape.decode v = .ok (lat, lon, alt)) :
    (∃ p, decodePosition v = .ok p) ↔ Position.InRange lat lon alt := by
  rw [← Position.exists_make_iff]
  refine exists_congr fun p => ?_
  rw [decodePosition_eq_ok_iff, h]
  refine ⟨?_, fun hmake => ⟨lat, lon, alt, rfl, hmake⟩⟩
  rintro ⟨_, _, _, hsame, hmake⟩
  cases hsame
  exact hmake

/-- A position has the coordinates that it is read from. -/
theorem coordinates_of_decodePosition {v : Value} {p : Position} (h : decodePosition v = .ok p) :
    coordinatesShape.decode v = .ok (p.latitude, p.longitude, p.altitude) := by
  obtain ⟨lat, lon, alt, hshape, hmake⟩ := decodePosition_eq_ok_iff.mp h
  obtain ⟨rfl, rfl, rfl⟩ := Position.coordinates_of_make hmake
  exact hshape

/-! ## Records by their fields -/

namespace Shape

variable {α β : Type} {s : Shape α} {values : String → Option Value} {missing : String → DocumentFault}

theorem build_map_eq_ok {f : α → β} {b : β} (h : (f <$> s).build values missing = .ok b) :
    ∃ a, s.build values missing = .ok a ∧ f a = b := by
  have hmap : (s.build values missing).map f = .ok b := h
  cases hs : s.build values missing with
  | error fault =>
    rw [hs] at hmap
    cases hmap
  | ok a =>
    rw [hs] at hmap
    cases hmap
    exact ⟨a, rfl, rfl⟩

theorem build_seq_eq_ok {sf : Shape (α → β)} {b : β} (h : (sf <*> s).build values missing = .ok b) :
    ∃ f a, sf.build values missing = .ok f ∧ s.build values missing = .ok a ∧ f a = b := by
  obtain ⟨f, hf, hrest⟩ := bind_eq_ok_iff.mp h
  obtain ⟨a, ha, hb⟩ := bind_eq_ok_iff.mp hrest
  exact ⟨f, a, hf, ha, Except.ok.inj hb⟩

/-- A field is read from its value, or has its default where there is none. -/
theorem build_fieldOr_eq_ok {name : String} {decode : Decoder α} {default : Option α} {a : α}
    (h : (fieldOr name decode default).build values missing = .ok a) :
    (∃ v, values name = some v ∧ decode v = .ok a) ∨ values name = none ∧ default = some a := by
  simp only [fieldOr] at h
  split at h
  · next hvalue => exact .inl ⟨_, hvalue, h⟩
  · next hvalue =>
    cases h
    exact .inr ⟨hvalue, rfl⟩
  · cases h

theorem build_field_eq_ok {name : String} {decode : Decoder α} {a : α}
    (h : (field name decode).build values missing = .ok a) :
    ∃ v, values name = some v ∧ decode v = .ok a := by
  rcases build_fieldOr_eq_ok h with hvalue | ⟨-, hnone⟩
  · exact hvalue
  · cases hnone

/-- The value that stands for each field of a shape: by name in an object, by its place in an array. -/
def valueIn (s : Shape α) : Value → String → Option Value
  | .object fields _ => valueOf fields
  | .array items _ => valueOf ((s.tests.map fun t => some t.1).zip items)
  | _ => fun _ => none

/-- What is taken apart as a record is made from the values that stand for its fields. -/
theorem exists_build {v : Value} {a : α} (h : s.decode v = .ok a) :
    ∃ missing, s.build (s.valueIn v) missing = .ok a := by
  cases v with
  | object fields closed =>
    obtain ⟨_, -, hbuild⟩ := bind_eq_ok_iff.mp h
    split at hbuild
    · exact ⟨_, hbuild⟩
    · cases hbuild
  | array items closed =>
    obtain ⟨b, hbuild, hrest⟩ := bind_eq_ok_iff.mp h
    rw [List.map_map] at hbuild
    split at hrest
    · cases hrest
      exact ⟨_, hbuild⟩
    · cases hrest
  | _ => cases h

end Shape

/-! ## Nodes -/

/-- What the values of its fields say of a node. Only the id and the position have to be there. -/
structure Says (now : Instant) (values : String → Option Value) (n : Node) : Prop where
  id : ∃ v, values "id" = some v ∧ decodeText v = .ok n.id
  position : ∃ v, values "position" = some v ∧
    coordinatesShape.decode v = .ok (n.position.latitude, n.position.longitude, n.position.altitude)
  active : (∃ v, values "active" = some v ∧ decodeBool v = .ok n.active) ∨
    values "active" = none ∧ n.active = true
  lastSeen : (∃ v, values "last_seen" = some v ∧ decodeInstant v = .ok n.lastSeen) ∨
    values "last_seen" = none ∧ n.lastSeen = now

theorem says_of_decodeNode {now : Instant} {v : Value} {n : Node} (h : decodeNode now v = .ok n) :
    Says now ((nodeShape now).valueIn v) n := by
  obtain ⟨missing, hbuild⟩ := Shape.exists_build h
  generalize (nodeShape now).valueIn v = values at hbuild
  -- from the last field to the first, as the shape nests them
  obtain ⟨_, lastSeen, hthird, hseen, rfl⟩ := Shape.build_seq_eq_ok hbuild
  obtain ⟨_, active, hsecond, hactive, rfl⟩ := Shape.build_seq_eq_ok hthird
  obtain ⟨_, position, hfirst, hposition, rfl⟩ := Shape.build_seq_eq_ok hsecond
  obtain ⟨id, hid, rfl⟩ := Shape.build_map_eq_ok hfirst
  obtain ⟨place, hplace, hdecoded⟩ := Shape.build_field_eq_ok hposition
  exact {
    id := Shape.build_field_eq_ok hid
    position := ⟨place, hplace, coordinates_of_decodePosition hdecoded⟩
    active := (Shape.build_fieldOr_eq_ok hactive).imp_right fun ⟨hnone, hdefault⟩ =>
      ⟨hnone, (Option.some.inj hdefault).symm⟩
    lastSeen := (Shape.build_fieldOr_eq_ok hseen).imp_right fun ⟨hnone, hdefault⟩ =>
      ⟨hnone, (Option.some.inj hdefault).symm⟩ }

/-! ## Documents -/

theorem decodeItems_eq_ok_iff {α : Type} {decode : Decoder α} {items : List Value} {as : List α} :
    decodeItems decode items = .ok as ↔ List.Forall₂ (fun v a => decode v = .ok a) items as := by
  induction items generalizing as with
  | nil =>
    rw [List.forall₂_nil_left_iff]
    simp [decodeItems, eq_comm]
  | cons v rest ih =>
    rw [List.forall₂_cons_left_iff, decodeItems, bind_eq_ok_iff]
    simp only [bind_eq_ok_iff, ih, Except.ok.injEq]
    refine ⟨?_, ?_⟩
    · rintro ⟨a, ha, others, hothers, rfl⟩
      exact ⟨a, others, ha, hothers, rfl⟩
    · rintro ⟨a, others, ha, hothers, rfl⟩
      exact ⟨a, ha, others, hothers, rfl⟩

/-- A text that is a document, with nothing after it, of an array whose items are these nodes. -/
def Lists (now : Instant) (text : String) (nodes : List Node) : Prop :=
  ∃ items, readDocument text.toList = (.array items true, true) ∧
    List.Forall₂ (fun v n => decodeNode now v = .ok n) items nodes

theorem decodeList_eq_ok_iff {α : Type} {decode : Decoder α} {v : Value} {as : List α} :
    decodeList decode v = .ok as ↔
      ∃ items, v = .array items true ∧ List.Forall₂ (fun v a => decode v = .ok a) items as := by
  cases v with
  | array items closed =>
    simp only [decodeList, bind_eq_ok_iff, Value.array.injEq, ← decodeItems_eq_ok_iff]
    cases closed <;> simp
  | _ => simp [decodeList]

theorem parse_nodes_iff {now : Instant} {text : String} {nodes : List Node} :
    parse (decodeList (decodeNode now)) text = .ok nodes ↔ Lists now text nodes := by
  simp only [parse, Lists]
  rcases readDocument text.toList with ⟨v, ended⟩
  simp only [bind_eq_ok_iff, decodeList_eq_ok_iff, Prod.mk.injEq]
  cases ended <;> simp

/-- The document of plain items lists what they are taken for. -/
theorem lists_render {now : Instant} {items : List Value} {nodes : List Node}
    (hplain : (Value.array items true).isPlain = true)
    (hnodes : List.Forall₂ (fun v n => decodeNode now v = .ok n) items nodes) :
    Lists now (Value.array items true).render nodes :=
  ⟨items, by rw [Value.render, String.toList_ofList, readDocument_chars hplain], hnodes⟩

end Json
end LightCone
