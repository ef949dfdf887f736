import WorldMarkup.Form.Basic

/-!
Flat records of components, for a store outside.
-/

set_option autoImplicit false
set_option relaxedAutoImplicit false

namespace WorldMarkup

/-- A component without its name. -/
structure Record where
  kind : EntityKind
  key : String
  tag : Tag
  fields : List ComponentField
  items : Forest Tag
  origin : Option ImportOrigin
  deriving DecidableEq

def Component.record (c : Component) : Record :=
  { kind := c.kind, key := c.key, tag := c.tag, fields := c.fields, items := c.items
    origin := c.origin }

def Form.records (f : Form) : List Record := f.components.map Component.record

end WorldMarkup
