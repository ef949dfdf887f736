import WorldMarkup.Tree.Query
import WorldMarkup.World.Tag

/-!
Ready-made queries on the paths of a world document.
-/

set_option autoImplicit false
set_option relaxedAutoImplicit false

namespace WorldMarkup

abbrev WorldQuery : Type := Query Tag

namespace WorldQuery

def category (c : Category) : WorldQuery := .test (fun t => t.category = c)

def entity (kind : EntityKind) (key : String) : WorldQuery := .test (Tag.isEntityOf kind key)

def anyEntity : WorldQuery := category .entity

def anyField : WorldQuery := category .field

def field (f : FieldKind) : WorldQuery := .test (fun t => t.field? = some f)

def conditional : WorldQuery := .any [category .conditional, category .branch]

def edit : WorldQuery := .any [category .edit, category .editBranch]

def declaration : WorldQuery := .any [category .imported, category .exported]

/-- Steps with no entity below them. -/
def belowLastEntity : WorldQuery := .not (.before .every anyEntity)

/-- The entity, where it is the nearest one above the end of a path outside of imports and
exports. -/
def owned (kind : EntityKind) (key : String) : WorldQuery :=
  .all [entity kind key, belowLastEntity, .not (.after .every declaration)]

end WorldQuery

end WorldMarkup
