import Tracery.Drawing.Compile
import Tracery.Svg.Document

namespace Tracery.Svg

def svgNamespace : String := "http://www.w3.org/2000/svg"

structure Canvas where
  document : Document
  root : Nat
  options : Options

namespace Canvas

def surface (attrs : Attrs) (options : Options) : Canvas :=
  let (root, document) := ({} : Document).createElement "svg"
  let document := document.setAttribute root "xmlns" svgNamespace
  let document := (options.drawnAttributes attrs).foldl
    (fun document (name, value) => document.setAttribute root name value) document
  { document, root, options }

def drawInto (canvas : Canvas) (parent : Nat) (s : Shape) : Except Error Nat × Canvas :=
  match Backend.compile canvas.options s canvas.document with
  | (.ok node, document) => (.ok node, { canvas with document := document.append parent node })
  | (.error error, document) => (.error error, { canvas with document })

def render (canvas : Canvas) (s : Shape) : Except Error Nat × Canvas :=
  canvas.drawInto canvas.root s

def definitions (canvas : Canvas) : Nat × Canvas :=
  match canvas.document.findChild? canvas.root "defs" with
  | some definitions => (definitions, canvas)
  | none =>
      let (definitions, document) := canvas.document.createElement "defs"
      (definitions, { canvas with document := document.append canvas.root definitions })

def define (canvas : Canvas) (s : Shape) : Except Error Nat × Canvas :=
  let (definitions, canvas) := canvas.definitions
  canvas.drawInto definitions s

def centerView (canvas : Canvas) (width height : Float) : Canvas :=
  let view := " ".intercalate
    [numberText (-width / 2), numberText (-height / 2), numberText width, numberText height]
  { canvas with document := canvas.document.setAttribute canvas.root "viewBox" view }

def turnAroundCenter (canvas : Canvas) (node : Nat) : Canvas :=
  { canvas with document := Backend.placeOrigin canvas.document node (some "center") }

def markup (canvas : Canvas) : String := canvas.document.markup canvas.root

end Canvas
end Tracery.Svg
