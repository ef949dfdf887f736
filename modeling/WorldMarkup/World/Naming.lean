import WorldMarkup.World.Tag

/-!
Stable names for nodes. A document's names share a seed, by default the checksum of the path it
is kept at, and are numbered from one.
-/

set_option autoImplicit false
set_option relaxedAutoImplicit false

namespace WorldMarkup

def Checksum.shift (r : UInt32) : UInt32 :=
  if r &&& 1 == 1 then (r >>> 1) ^^^ 0xEDB88320 else r >>> 1

def Checksum.absorb (r : UInt32) (b : UInt8) : UInt32 :=
  (List.range 8).foldl (fun r _ => Checksum.shift r) (r ^^^ b.toUInt32)

/-- The checksum that is known as CRC-32, by its definition: the reflected polynomial is EDB88320,
the register starts with ones, and in the end it is turned over. -/
def Checksum.ofBytes (bytes : List UInt8) : UInt32 :=
  bytes.foldl Checksum.absorb 0xFFFFFFFF ^^^ 0xFFFFFFFF

/-- The seed of a document's names: the checksum of its path in hexadecimal digits. -/
def documentSeed (path : String) : String :=
  String.ofList (Nat.toDigits 16 (Checksum.ofBytes path.toUTF8.toList).toNat)

/-- A source of names: what they share, and how many have been given out. A count of 32 bits tells
the same, as long as fewer than 2 ^ 32 names are given out. -/
structure Naming where
  seed : String
  count : Nat := 0

namespace Naming

def ofPath (path : String) : Naming := { seed := documentSeed path }

def name (g : Naming) (n : Nat) : String := g.seed ++ "-" ++ toString n

def next (g : Naming) : String × Naming := (g.name (g.count + 1), { g with count := g.count + 1 })

def wants (t : Tag) : Bool :=
  match t.category with
  | .entity | .field | .listItem => true
  | _ => false

/-- Name a node that is to have a name and has none, and count it. -/
def anchor (s : Naming × Nat) (t : Tag) (e : Extra) : (Tag × Extra) × Naming × Nat :=
  if wants t && e.id.isNone then
    ((t, { e with id := some s.1.next.1 }), s.1.next.2, s.2 + 1)
  else ((t, e), s)

/-- Name every entity, field and list item that has no name, in preorder; with the number of nodes
that have been named. -/
def assignMissingIds (g : Naming) (t : Forest Tag) : (Forest Tag × Nat) × Naming :=
  let out := Forest.mapAccum anchor (g, 0) t
  ((out.1, out.2.2), out.2.1)

/-- The named forest alone, with what the source of names is afterwards. -/
def assignMissing (g : Naming) (t : Forest Tag) : Forest Tag × Naming :=
  ((g.assignMissingIds t).1.1, (g.assignMissingIds t).2)

end Naming

end WorldMarkup
