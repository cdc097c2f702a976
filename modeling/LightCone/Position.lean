import LightCone.Binary64.Angle
import LightCone.Binary64.InverseSine
import LightCone.Binary64.Text

/-!
Positions on and above the earth, and the distance between them.

This file

1. defines positions, whose latitude, longitude and altitude are in range by construction
   (`Position.make`, with the first part that is out of range as the fault);
2. sorts positions into regions by bands of latitude and longitude;
3. measures the distance of two positions: the great circle over the surface by the
   haversine rule, and with it the difference of altitude as the other leg of a right
   triangle.
-/
namespace LightCone

/-- Finite and between two bounds, both included. -/
def Binary64.within (x low high : Binary64) : Bool :=
  x.isFinite && decide (low ≤ x) && decide (x ≤ high)

/-- Finite and not below zero. -/
def Binary64.isMagnitude (x : Binary64) : Bool := x.isFinite && decide (0 ≤ x)

/-- Degrees north and east, and meters above the surface. -/
structure Position where
  latitude : Binary64
  longitude : Binary64
  altitude : Binary64
  latitude_ok : latitude.within (-90) 90 = true
  longitude_ok : longitude.within (-180) 180 = true
  altitude_ok : altitude.isMagnitude = true
  deriving DecidableEq

/-- What keeps three numbers from being a position. -/
inductive PositionFault where
  | latitude (degrees : Binary64)
  | longitude (degrees : Binary64)
  | altitude (meters : Binary64)
  deriving DecidableEq

def PositionFault.message : PositionFault → String
  | .latitude x => "latitude " ++ x.shortest ++ " outside [-90, 90]"
  | .longitude x => "longitude " ++ x.shortest ++ " outside [-180, 180]"
  | .altitude x => "altitude " ++ x.shortest ++ " must be a non-negative number of meters"

namespace Position

/-- The position with these coordinates, or the first coordinate out of range. -/
def make (latitude longitude altitude : Binary64) : Except PositionFault Position :=
  if hlat : latitude.within (-90) 90 = true then
    if hlon : longitude.within (-180) 180 = true then
      if halt : altitude.isMagnitude = true then
        .ok ⟨latitude, longitude, altitude, hlat, hlon, halt⟩
      else .error (.altitude altitude)
    else .error (.longitude longitude)
  else .error (.latitude latitude)

/-- The coordinates with four places of a degree and whole meters. -/
def text (p : Position) : String :=
  "(" ++ p.latitude.fixed 4 ++ ", " ++ p.longitude.fixed 4 ++ ", " ++ p.altitude.fixed 0 ++ "m)"

end Position

/-! ## Regions -/

/-- A coarse part of the earth. -/
inductive Region where
  | northAmerica
  | southAmerica
  | europe
  | africa
  | asia
  | oceania
  | polar
  deriving DecidableEq, Inhabited

namespace Region

def name : Region → String
  | northAmerica => "north-america"
  | southAmerica => "south-america"
  | europe => "europe"
  | africa => "africa"
  | asia => "asia"
  | oceania => "oceania"
  | polar => "polar"

/-- The regions in the order of their listing. -/
def all : List Region := [northAmerica, southAmerica, europe, africa, asia, oceania, polar]

/-- The region of a position: beyond 66.5 degrees the poles, else by bands from west to east. -/
def of (p : Position) : Region :=
  if 66.5 < p.latitude.abs then polar
  else if p.longitude < -30 then (if 12 ≤ p.latitude then northAmerica else southAmerica)
  else if p.longitude < 60 then (if 35 ≤ p.latitude then europe else africa)
  else if p.latitude < -10 ∧ 110 ≤ p.longitude then oceania
  else asia

end Region

/-! ## Distance -/

def radiansPerDegree : Binary64 := 3.14159265358979323846264338327950288 / 180

/-- The mean radius of the earth in meters. -/
def earthRadius : Binary64 := 6371000

namespace Position

/-- The haversine of the angle between two positions, seen from the center of the earth. -/
def haversine (a b : Position) : Binary64 :=
  let latA := a.latitude * radiansPerDegree
  let latB := b.latitude * radiansPerDegree
  let dLat := latB - latA
  let dLon := (b.longitude - a.longitude) * radiansPerDegree
  (dLat / 2).sin.square + latA.cos * latB.cos * (dLon / 2).sin.square

/-- Meters over the surface. Rounding may lift the root of a haversine above one for opposite
    points, so it is held to one. -/
def surfaceDistance (a b : Position) : Binary64 :=
  2 * earthRadius * ((haversine a b).sqrt.smaller 1).asin

/-- Meters between two positions, altitude included. -/
def distance (a b : Position) : Binary64 :=
  (surfaceDistance a b).hypot (a.altitude - b.altitude).abs

end Position
end LightCone
