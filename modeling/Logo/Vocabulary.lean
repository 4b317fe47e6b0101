import Logo.Table

/-! The words with a built-in meaning: turtle commands, operations on values, traversals of lists by a
procedure, questions about the state, and the keywords of statements. Case does not matter. -/
namespace Logo

inductive Command where
  | penUp | penDown | home | clear | clearScreen | hideTurtle | showTurtle
  | forward | backward | left | right | setHeading | setX | setY | setPenSize | setPos | circle | square
  | setXY | box
  | setPenColor | setPenRGB
  deriving DecidableEq, Repr

namespace Command

def all : List Command :=
  [penUp, penDown, home, clear, clearScreen, hideTurtle, showTurtle, forward, backward, left, right,
    setHeading, setX, setY, setPenSize, setPos, circle, square, setXY, box, setPenColor, setPenRGB]

def name : Command → String
  | penUp => "PENUP"
  | penDown => "PENDOWN"
  | home => "HOME"
  | clear => "CLEAR"
  | clearScreen => "CLEARSCREEN"
  | hideTurtle => "HIDETURTLE"
  | showTurtle => "SHOWTURTLE"
  | forward => "FORWARD"
  | backward => "BACKWARD"
  | left => "LEFT"
  | right => "RIGHT"
  | setHeading => "SETHEADING"
  | setX => "SETX"
  | setY => "SETY"
  | setPenSize => "SETPENSIZE"
  | setPos => "SETPOS"
  | circle => "CIRCLE"
  | square => "SQUARE"
  | setXY => "SETXY"
  | box => "BOX"
  | setPenColor => "SETPENCOLOR"
  | setPenRGB => "SETPENRGB"

def aliases : Command → List String
  | penUp => ["PU"]
  | penDown => ["PD"]
  | clearScreen => ["CS"]
  | hideTurtle => ["HT"]
  | showTurtle => ["ST"]
  | forward => ["FD"]
  | backward => ["BK", "BACK"]
  | left => ["LT"]
  | right => ["RT"]
  | setHeading => ["SETH"]
  | setPenSize => ["PENSIZE"]
  | setPenColor => ["SETPC"]
  | _ => []

def arity : Command → Nat
  | penUp | penDown | home | clear | clearScreen | hideTurtle | showTurtle => 0
  | setXY | box => 2
  | setPenColor | setPenRGB => 3
  | _ => 1

end Command

inductive Operation where
  | sqrt | sin | cos | tan | arctan | abs | round | floor | ceiling | int | ln | exp | minus | random
  | first | last | butFirst | butLast | count | isEmpty
  | power | remainder | item | fput | lput | isMember | position | sentence | list
  deriving DecidableEq, Repr

namespace Operation

def all : List Operation :=
  [sqrt, sin, cos, tan, arctan, abs, round, floor, ceiling, int, ln, exp, minus, random, first, last,
    butFirst, butLast, count, isEmpty, power, remainder, item, fput, lput, isMember, position, sentence,
    list]

def name : Operation → String
  | sqrt => "SQRT"
  | sin => "SIN"
  | cos => "COS"
  | tan => "TAN"
  | arctan => "ARCTAN"
  | abs => "ABS"
  | round => "ROUND"
  | floor => "FLOOR"
  | ceiling => "CEILING"
  | int => "INT"
  | ln => "LN"
  | exp => "EXP"
  | minus => "MINUS"
  | random => "RANDOM"
  | first => "FIRST"
  | last => "LAST"
  | butFirst => "BUTFIRST"
  | butLast => "BUTLAST"
  | count => "COUNT"
  | isEmpty => "EMPTY?"
  | power => "POWER"
  | remainder => "REMAINDER"
  | item => "ITEM"
  | fput => "FPUT"
  | lput => "LPUT"
  | isMember => "MEMBER?"
  | position => "POSITION"
  | sentence => "SENTENCE"
  | list => "LIST"

def aliases : Operation → List String
  | butFirst => ["BF"]
  | butLast => ["BL"]
  | isEmpty => ["EMPTYP"]
  | power => ["POW"]
  | isMember => ["MEMBERP"]
  | sentence => ["SE"]
  | _ => []

def arity : Operation → Nat
  | power | remainder | item | fput | lput | isMember | position | sentence | list => 2
  | _ => 1

end Operation

inductive Traversal where
  | map | filter | reduce | apply
  deriving DecidableEq, Repr

namespace Traversal

def all : List Traversal := [map, filter, reduce, apply]

def name : Traversal → String
  | map => "MAP"
  | filter => "FILTER"
  | reduce => "REDUCE"
  | apply => "APPLY"

end Traversal

inductive Query where
  | xCor | yCor | heading | pos | isPenDown | penSize | penColor | isShown | repCount
  deriving DecidableEq, Repr

namespace Query

def all : List Query := [xCor, yCor, heading, pos, isPenDown, penSize, penColor, isShown, repCount]

def name : Query → String
  | xCor => "XCOR"
  | yCor => "YCOR"
  | heading => "HEADING"
  | pos => "POS"
  | isPenDown => "PENDOWN?"
  | penSize => "PENSIZE"
  | penColor => "PENCOLOR"
  | isShown => "SHOWN?"
  | repCount => "REPCOUNT"

def aliases : Query → List String
  | isPenDown => ["PENDOWNP"]
  | isShown => ["SHOWNP"]
  | _ => []

end Query

def Command.ofWord? (word : String) : Option Command :=
  Command.all.find? fun c => c.name == fold word || c.aliases.contains (fold word)

def Operation.ofWord? (word : String) : Option Operation :=
  Operation.all.find? fun f => f.name == fold word || f.aliases.contains (fold word)

def Traversal.ofWord? (word : String) : Option Traversal :=
  Traversal.all.find? fun t => t.name == fold word

def Query.ofWord? (word : String) : Option Query :=
  Query.all.find? fun q => q.name == fold word || q.aliases.contains (fold word)

inductive Keyword where
  | define | finish | loop | ifThen | ifElse | make | output | stop | print | whileTrue | forEach | declare
  deriving DecidableEq, Repr

namespace Keyword

def all : List Keyword :=
  [define, finish, loop, ifThen, ifElse, make, output, stop, print, whileTrue, forEach, declare]

def name : Keyword → String
  | define => "TO"
  | finish => "END"
  | loop => "REPEAT"
  | ifThen => "IF"
  | ifElse => "IFELSE"
  | make => "MAKE"
  | output => "OUTPUT"
  | stop => "STOP"
  | print => "PRINT"
  | whileTrue => "WHILE"
  | forEach => "FOR"
  | declare => "LOCAL"

def aliases : Keyword → List String
  | output => ["OP"]
  | print => ["PR"]
  | _ => []

def ofWord? (word : String) : Option Keyword :=
  all.find? fun k => k.name == fold word || k.aliases.contains (fold word)

end Keyword

def isKeyword (word : String) : Bool := (Keyword.ofWord? word).isSome

def isBuiltin (word : String) : Bool :=
  (Command.ofWord? word).isSome || (Operation.ofWord? word).isSome ||
    (Traversal.ofWord? word).isSome || (Query.ofWord? word).isSome

end Logo
