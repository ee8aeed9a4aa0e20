import Ownership.Prelude

namespace Ownership

abbrev Scope := List (List (String × Entity))

structure Resolution where
  entity : Entity
  generics : List Term := []

inductive RelativeResolution where
  | found (r : Resolution)
  /-- No lexical member; a lookup directed by the type may still apply. -/
  | notFound (r : Resolution)

namespace Entity

def describe : Entity → String
  | var v => s!"the variable `{v.render}`"
  | function f => s!"the function `{f.name}`"
  | module name _ _ => s!"the module `{name}`"
  | aggregate a => s!"the {a.style.name} `{a.name}`"
  | field f => s!"the field `{f.name}`"
  | primitive p => s!"the primitive type `{p.name}`"

def span? : Entity → Option Span
  | var v => some v.span
  | function f => some f.span
  | module _ span _ => some span
  | aggregate a => some a.span
  | field f => some f.span
  | primitive _ => none

end Entity

namespace Scope

def empty : Scope := []

def ofModules (modules : List (List (String × Entity))) : Scope :=
  modules.reverse

def withEntry (s : Scope) (name : String) (e : Entity) : Scope :=
  [(name, e)] :: s

def withEntries (s : Scope) (entries : List (String × Entity)) : Scope :=
  entries.reverse :: s

def lookup (s : Scope) (name : String) : Option Entity :=
  s.findSome? fun group => group.lookup name

def resolve? (s : Scope) (name : String) : Option Resolution :=
  match s.lookup name with
  | some e => some ⟨e, []⟩
  | none => (Primitive.ofName? name).map fun p => ⟨.primitive p, []⟩

def unresolved (name : String) (span : Span) : Diagnostic :=
  (Diagnostic.error span s!"could not find anything named `{name}`" (some .unresolvedName)).label
    .error span "I could not find anything with this name :("

def resolve (s : Scope) (name : String) (span : Span) : Except Diagnostic Resolution :=
  match s.resolve? name with
  | some r => .ok r
  | none => .error (unresolved name span)

end Scope

namespace Resolution

def describe (r : Resolution) : String := r.entity.describe

def span? (r : Resolution) : Option Span := r.entity.span?

def relative (p : Program) (r : Resolution) (name : String) (span : Span) :
    Except Diagnostic RelativeResolution :=
  match r.entity with
  | .module moduleName _ items =>
    match items.lookup name with
    | some e => .ok (.found ⟨e, []⟩)
    | none =>
      .error ((Diagnostic.error span s!"the module `{moduleName}` has no item named `{name}`"
        (some .noSuchItem)).label .error span s!"I could not find `{name}` in `{moduleName}`")
  | .aggregate a =>
    match p.member a name with
    | some (.function f) => .ok (.found ⟨.function f, r.generics⟩)
    | some (.field f) => .ok (.found ⟨.field f, r.generics⟩)
    | none => .ok (.notFound r)
  | _ => .ok (.notFound r)

end Resolution

end Ownership
