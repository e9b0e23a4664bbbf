/-
What the program reports about its work: the events, their levels and their
lines.
-/
import GraphCalc.Compile
import GraphCalc.PlotList
import GraphCalc.Tab
import GraphCalc.Text
import GraphCalc.Viewport
namespace GraphCalc

/-- The levels of events, the finest first. -/
inductive Level where
  | trace
  | debug
  | info
  | warn
  | error
deriving Repr, DecidableEq

namespace Level

/-- The rank of a level; the gravest has the greatest. -/
def rank : Level → Nat
  | trace => 0
  | debug => 1
  | info => 2
  | warn => 3
  | error => 4

def word : Level → String
  | trace => "TRACE"
  | debug => "DEBUG"
  | info => "INFO"
  | warn => "WARN"
  | error => "ERROR"

end Level

/-- What may be reported. -/
inductive Event where
  /-- a text was brought into postfix notation -/
  | compiled (text : List Char) (tokens : List Token) (items : List Postfix.Item)
  /-- a text with the variable was to be evaluated -/
  | variableRefused (text : List Char)
  /-- a text with a fault was to be evaluated -/
  | malformed (text : List Char) (error : SyntaxError)
  /-- a curve was sampled -/
  | sampled (expr : Expr) (width height segments points : Nat)
  | divisionByZero
  /-- an expression was completed on the scientific pad -/
  | completed (expression display : List Char)
  /-- a function was given to the plot list -/
  | submitted (text : List Char) (addition : Addition)
  | boundsRefused (bounds : Viewport)
  | strokeCorrected (width : Float32)
  | sessionRestored
  /-- a typed character that the tab shown does not take -/
  | keyIgnored (key : Char)
  | sessionSaved (tab : Tab) (functions : Nat)
  | settingsLoaded (path : List Char)
  | settingsRefused (path : List Char)
  /-- a settings file that is no text -/
  | settingsUnreadable
  | settingsStandard
  | started (mode : AngleMode)
deriving Repr, DecidableEq

/-- The name of an angle mode in settings and in the journal. -/
def AngleMode.name : AngleMode → String
  | .radians => "Radians"
  | .degrees => "Degres"

/-- The name of what became of a text that was given to the plot list. -/
def Addition.name : Addition → String
  | .added => "Ajoutee"
  | .blank => "Vide"
  | .duplicate => "Doublon"

def Viewport.journalText (view : Viewport) : String :=
  "Bornes \x7b x_min: " ++ String.ofList (Double.pointedText view.xMin) ++
    ", x_max: " ++ String.ofList (Double.pointedText view.xMax) ++
    ", y_min: " ++ String.ofList (Double.pointedText view.yMin) ++
    ", y_max: " ++ String.ofList (Double.pointedText view.yMax) ++ " \x7d"

namespace Event

def level : Event → Level
  | sampled .. => .trace
  | sessionRestored | settingsLoaded _ | settingsStandard | started _ => .info
  | strokeCorrected _ | settingsRefused _ | settingsUnreadable => .warn
  | _ => .debug

section Line
-- The characters that are written by their code points.
variable (invisible : Char → Bool)

private def quote (text : List Char) : String :=
  String.ofList (Text.quoted invisible text)

def message : Event → String
  | compiled text tokens items =>
      "compilation de " ++ quote invisible text ++
        " jetons=" ++ String.ofList (Token.textOf tokens) ++
        " rpn=" ++ String.ofList (Postfix.textOf items)
  | variableRefused text =>
      "évaluation refusée pour " ++ quote invisible text ++ ": x sans valeur"
  | malformed text error =>
      "expression malformée " ++ quote invisible text ++ ": " ++ error.message
  | sampled expr width height segments points =>
      "tracé " ++ String.ofList expr.text ++ " sur " ++ toString width ++ "x" ++
        toString height ++ " segments=" ++ toString segments ++ " points=" ++ toString points
  | divisionByZero => "standard: division par zéro"
  | completed expression display =>
      "scientifique: " ++ quote invisible expression ++ " = " ++ String.ofList display
  | submitted text addition =>
      "grapheur: ajout " ++ quote invisible text ++ " -> " ++ addition.name
  | boundsRefused bounds =>
      "grapheur: bornes refusées " ++ bounds.journalText ++ ": " ++ Viewport.refusal
  | strokeCorrected width =>
      "epaisseur_trait invalide (" ++ String.ofList (Single.plainText width) ++
        "), retour à 2.0"
  | sessionRestored => "session précédente restaurée"
  | keyIgnored key => "touche ignorée " ++ String.ofList (Text.quotedChar invisible key)
  | sessionSaved tab functions =>
      "sauvegarde de la session onglet=" ++ tab.name ++ " fonctions=" ++ toString functions
  | settingsLoaded path => "réglages chargés depuis " ++ quote invisible path
  | settingsRefused path => "réglages illisibles (" ++ quote invisible path ++ ")"
  | settingsUnreadable =>
      "lecture des réglages impossible: stream did not contain valid UTF-8"
  | settingsStandard => "réglages par défaut"
  | started mode => "démarrage mode=" ++ mode.name

def line (event : Event) : String :=
  event.level.word ++ " " ++ event.message invisible

end Line

end Event

/-! ### Events of compilation and evaluation -/

def compileEvents (text : List Char) : List Event :=
  let body := Text.trim text
  match Token.tokenize body with
  | .error _ => []
  | .ok tokens =>
      match Postfix.ofTokens tokens with
      | .error _ => []
      | .ok items => [.compiled body tokens items]

def evaluateEvents (text : List Char) : List Event :=
  compileEvents text ++
    match compile text with
    | .error e => [.malformed text e]
    | .ok expr => if expr.mentionsVar then [.variableRefused text] else []

end GraphCalc
