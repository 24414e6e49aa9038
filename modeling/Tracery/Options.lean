namespace Tracery

/--
How shapes are drawn. Strict options refuse shapes whose geometry is missing or not finite;
`roundAlpha` makes the opacity of paint texts whole, and `extraAttributes` are drawn besides the
standard ones.
-/
structure Options where
  strict : Bool := false
  roundAlpha : Bool := true
  extraAttributes : List String := []
  deriving Repr, DecidableEq

def kebab : List Char → List Char
  | [] => []
  | c :: rest => if c.isUpper then '-' :: c.toLower :: kebab rest else c :: kebab rest

def kebabName (name : String) : String := String.ofList (kebab name.toList)

def verbatimNames : List String := ["viewBox", "textLength", "lengthAdjust"]

def drawnName (key : String) : String :=
  if verbatimNames.contains key then key else kebabName key

def standardAttributes : List String :=
  ["class", "id", "cx", "cy", "r", "rx", "ry", "x", "y", "x1", "x2", "y1", "y2", "dx", "dy",
    "width", "height", "d", "points", "fill", "fill-rule", "fill-opacity", "opacity", "stroke",
    "stroke-dasharray", "stroke-dashoffset", "stroke-linecap", "stroke-linejoin",
    "stroke-miterlimit", "stroke-opacity", "stroke-width", "transform", "transform-origin",
    "clip-path", "mask", "viewBox", "text-anchor", "dominant-baseline", "textLength",
    "lengthAdjust", "font-family", "font-size", "font-style", "font-weight", "letter-spacing"]

def Options.allows (options : Options) (name : String) : Bool :=
  standardAttributes.contains name || options.extraAttributes.contains name

theorem Options.allows_iff {options : Options} {name : String} :
    options.allows name = true ↔ name ∈ standardAttributes ∨ name ∈ options.extraAttributes := by
  simp [allows]

end Tracery
