import Ownership.Diagnostic

namespace Ownership

structure RelatedLocation where
  uri : String
  span : Span
  message : String
deriving DecidableEq

structure EditorDiagnostic where
  span : Span
  severity : Nat
  code : Option Code
  source : String
  message : String
  related : List RelatedLocation
deriving DecidableEq

def Level.severity : Level → Nat
  | .error => 1
  | .warning => 2
  | .info => 3
  | .help => 4
  | .note => 4

def Diagnostic.toEditor (uri : String) (d : Diagnostic) : EditorDiagnostic where
  span := d.span
  severity := d.level.severity
  code := d.code
  source := "perm"
  message := "\n".intercalate (d.message :: d.because.map ("because " ++ ·))
  related := d.labels.map (fun l => ⟨uri, l.span, l.message⟩)
    ++ d.children.map (fun c => ⟨uri, c.span, c.message⟩)

end Ownership
