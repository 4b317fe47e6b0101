import Logo.Turtle

/-! The lines of a turtle. The turtle keeps its lines in paths, closed ones and one that still grows, and the growing
one takes its style only when it is closed. Here it is compared with a plain plot: a pen, and a list to which every
movement with the pen down adds one line in the style of that moment. -/
namespace Logo

inductive Order where
  | forward (distance : Float)
  | backward (distance : Float)
  | left (degrees : Float)
  | right (degrees : Float)
  | setHeading (degrees : Float)
  | setXY (x y : Float)
  | setX (x : Float)
  | setY (y : Float)
  | home
  | circle (radius : Float)
  | box (width height : Float)
  | square (size : Float)
  | liftPen
  | lowerPen
  | setPenColor (color : Color)
  | setPenSize (width : Float)
  | hide
  | unhide
  | setCircleSteps (steps : Nat)
  | clear

def Order.moves : Order → Bool
  | .liftPen | .lowerPen | .setPenColor _ | .setPenSize _ | .hide | .unhide | .setCircleSteps _ | .clear => false
  | _ => true

inductive Leg where
  | ahead (distance : Float)
  | straightTo (target : Point)
  | left (degrees : Float)
  | right (degrees : Float)
  | face (degrees : Float)

structure Pen where
  position : Point
  heading : Float
  down : Bool
  width : Float
  color : Color
  circleSteps : Nat

namespace Pen

def ahead (p : Pen) (distance : Float) : Point :=
  let angle := radians p.heading
  ⟨p.position.x + distance * snap angle.cos, p.position.y + distance * snap angle.sin⟩

def target? (p : Pen) : Leg → Option Point
  | .ahead distance => some (p.ahead distance)
  | .straightTo target => some target
  | .left _ | .right _ | .face _ => none

def follow (p : Pen) : Leg → Pen
  | .ahead distance => { p with position := p.ahead distance }
  | .straightTo target => { p with position := target }
  | .left degrees => { p with heading := normalizeHeading (p.heading + degrees) }
  | .right degrees => { p with heading := normalizeHeading (p.heading - degrees) }
  | .face degrees => { p with heading := normalizeHeading degrees }

def line? (p : Pen) (leg : Leg) : Option Segment :=
  if p.down then (p.target? leg).map fun target => ⟨p.position, target, p.color, p.width⟩ else none

def lines (p : Pen) : List Leg → List Segment
  | [] => []
  | leg :: rest => (p.line? leg).toList ++ (p.follow leg).lines rest

def legs (p : Pen) : Order → List Leg
  | .forward distance => [.ahead distance]
  | .backward distance => [.ahead (-distance)]
  | .left degrees => [.left degrees]
  | .right degrees => [.right degrees]
  | .setHeading degrees => [.face degrees]
  | .setXY x y => [.straightTo ⟨x, y⟩]
  | .setX x => [.straightTo ⟨x, p.position.y⟩]
  | .setY y => [.straightTo ⟨p.position.x, y⟩]
  | .home => [.straightTo {}, .face north]
  | .circle radius =>
    let steps := Number.ofNat p.circleSteps
    (List.replicate p.circleSteps [.ahead (2 * pi * radius / steps), .left (360 / steps)]).flatten
  | .box width height => (List.replicate 2 [.ahead width, .right 90, .ahead height, .right 90]).flatten
  | .square size => (List.replicate 4 [.ahead size, .right 90]).flatten
  | .liftPen | .lowerPen | .setPenColor _ | .setPenSize _ | .hide | .unhide | .setCircleSteps _ | .clear => []

def obey (p : Pen) (order : Order) : Pen :=
  match order with
  | .liftPen => { p with down := false }
  | .lowerPen => { p with down := true }
  | .setPenColor color => { p with color := color }
  | .setPenSize width => if clampWidth width == p.width then p else { p with width := clampWidth width }
  | .setCircleSteps steps => { p with circleSteps := max steps 1 }
  | .clear => { p with position := {}, heading := north, down := true }
  | order => (p.legs order).foldl follow p

theorem obey_of_moves (p : Pen) {order : Order} (hmoves : order.moves = true) :
    p.obey order = (p.legs order).foldl follow p := by
  cases order
  case liftPen | lowerPen | setPenColor | setPenSize | hide | unhide | setCircleSteps | clear => cases hmoves
  all_goals rfl

def strokes (p : Pen) : List Order → List Segment
  | [] => []
  | order :: rest => p.lines (p.legs order) ++ (p.obey order).strokes rest

end Pen

/-- A pen and the lines drawn since the last clearing, oldest first. -/
structure Plot where
  pen : Pen
  lines : List Segment

namespace Plot

def styled (width : Float) (color : Color) : Plot :=
  ⟨⟨{}, north, true, clampWidth width, color, 36⟩, []⟩

def obey (p : Plot) (order : Order) : Plot :=
  ⟨p.pen.obey order, match order with
    | .clear => []
    | order => p.lines ++ p.pen.lines (p.pen.legs order)⟩

def run (p : Plot) (orders : List Order) : Plot := orders.foldl obey p

theorem lines_obey (p : Plot) {order : Order} (hclear : order ≠ .clear) :
    (p.obey order).lines = p.lines ++ p.pen.lines (p.pen.legs order) := by
  cases order
  case clear => exact absurd rfl hclear
  all_goals rfl

end Plot

namespace Turtle

def obey (t : Turtle) : Order → Turtle
  | .forward distance => t.forward distance
  | .backward distance => t.backward distance
  | .left degrees => t.left degrees
  | .right degrees => t.right degrees
  | .setHeading degrees => t.setHeading degrees
  | .setXY x y => t.setXY x y
  | .setX x => t.setX x
  | .setY y => t.setY y
  | .home => t.home
  | .circle radius => t.circle radius
  | .box width height => t.box width height
  | .square size => t.square size
  | .liftPen => t.liftPen
  | .lowerPen => t.lowerPen
  | .setPenColor color => t.setPenColor color
  | .setPenSize width => t.setPenSize width
  | .hide => t.hide
  | .unhide => t.unhide
  | .setCircleSteps steps => t.setCircleSteps steps
  | .clear => t.clear

def run (t : Turtle) (orders : List Order) : Turtle := orders.foldl obey t

def pen (t : Turtle) : Pen := ⟨t.position, t.heading, t.penDown, t.penWidth, t.penColor, t.circleSteps⟩

def plot (t : Turtle) : Plot := ⟨t.pen, t.segments⟩

/-- The growing path is there while the pen is down and ends where the turtle is. Closed paths have a line. -/
structure Consistent (t : Turtle) : Prop where
  current_eq_nil : t.current.toList = [] ↔ t.penDown = false
  current_ends : t.penDown = true → t.current.toList.getLast? = some t.position
  paths_long : ∀ p ∈ t.paths.toList, 2 ≤ p.points.length

structure Draws (t : Turtle) (lines : List Segment) (t' : Turtle) : Prop where
  consistent : t'.Consistent
  segments : t'.segments = t.segments ++ lines
  heard : t'.heard?.map Log.toList = t.heard?.map fun log => log.toList ++ lines

end Turtle

namespace Path

theorem segments_eq_nil {p : Path} (h : p.points.length < 2) : p.segments = [] := by
  obtain ⟨points, color, width⟩ := p
  rcases points with _ | ⟨a, _ | ⟨b, rest⟩⟩
  · rfl
  · rfl
  · rw [List.length_cons, List.length_cons] at h
    omega

/-- One more point makes one more line, from the last point so far. -/
theorem segments_append {points : List Point} {a : Point} (h : points.getLast? = some a) (b : Point) (color : Color)
    (width : Float) :
    segments ⟨points ++ [b], color, width⟩ = segments ⟨points, color, width⟩ ++ [⟨a, b, color, width⟩] := by
  induction points with
  | nil => cases h
  | cons c rest ih =>
    cases rest with
    | nil =>
      cases h
      rfl
    | cons d rest => exact congrArg (_ :: ·) (ih (by simpa using h))

end Path

namespace Turtle
variable {t t' t'' : Turtle} {lines lines' : List Segment}

/-- The growing path may count as a path even while it has no line. -/
theorem segments_eq (t : Turtle) :
    t.segments = t.paths.toList.flatMap Path.segments ++ Path.segments ⟨t.current.toList, t.penColor, t.penWidth⟩ := by
  rw [segments, drawing, List.flatMap_append, openPath?]
  congr 1
  split
  · simp
  · rename_i h
    rw [Path.segments_eq_nil (by simpa using h)]
    rfl

theorem segments_closePath (t : Turtle) : t.closePath.segments = t.segments := by
  rw [segments_eq, closePath, segments, drawing]
  cases t.openPath? <;> simp [Path.segments, Path.lines]

theorem closePath_long (h : t.Consistent) : ∀ p ∈ t.closePath.paths.toList, 2 ≤ p.points.length := by
  unfold closePath openPath?
  split
  · rename_i p hp
    split at hp
    · rename_i hsize
      cases hp
      simpa [or_imp, forall_and] using ⟨h.paths_long, hsize⟩
    · cases hp
  · exact h.paths_long

/-- A path of one point or none adds no line, whatever its style. -/
theorem segments_of_short (h : t.current.size < 2) : t.segments = t.paths.toList.flatMap Path.segments := by
  rw [segments_eq, Path.segments_eq_nil (by simpa using h), List.append_nil]

theorem short_of_up (h : t.Consistent) (hup : ¬t.penDown = true) : t.current.size < 2 := by
  have hnil : t.current.toList = [] := h.current_eq_nil.mpr (by simpa using hup)
  rw [← Log.length_toList, hnil]
  decide

namespace Draws

theorem refl (h : t.Consistent) : Draws t [] t :=
  ⟨h, (List.append_nil _).symm, by simp⟩

theorem trans (h : Draws t lines t') (h' : Draws t' lines' t'') : Draws t (lines ++ lines') t'' := by
  refine ⟨h'.consistent, by rw [h'.segments, h.segments, List.append_assoc], ?_⟩
  rw [h'.heard]
  have hlog := congrArg (Option.map (· ++ lines')) h.heard
  simpa [Option.map_map, Function.comp_def] using hlog

end Draws

/-- The heading, the visibility and the steps of circles leave no trace. -/
theorem unmoved_draws (h : t.Consistent) (heading : Float) (visible : Bool) (steps : Nat) :
    Draws t [] { t with heading := heading, visible := visible, circleSteps := steps } :=
  ⟨⟨h.current_eq_nil, h.current_ends, h.paths_long⟩, (List.append_nil _).symm, by simp⟩

theorem moveTo_draws (h : t.Consistent) (target : Point) :
    Draws t (if t.penDown then [⟨t.position, target, t.penColor, t.penWidth⟩] else []) (t.moveTo target) := by
  unfold moveTo
  split
  · rename_i hdown
    refine ⟨⟨by simp [hdown], fun _ => by simp, h.paths_long⟩, ?_, by simp [Option.map_map, Function.comp_def]⟩
    rw [segments_eq, segments_eq, List.append_assoc, ← Path.segments_append (h.current_ends hdown), Log.toList_push]
  · rename_i hup
    refine ⟨⟨h.current_eq_nil, fun hdown => absurd hdown hup, h.paths_long⟩, ?_, by simp⟩
    rw [List.append_nil]
    rfl

def follow (t : Turtle) : Leg → Turtle
  | .ahead distance => t.forward distance
  | .straightTo target => t.moveTo target
  | .left degrees => t.left degrees
  | .right degrees => t.right degrees
  | .face degrees => t.setHeading degrees

theorem pen_moveTo (t : Turtle) (target : Point) : (t.moveTo target).pen = { t.pen with position := target } := by
  unfold moveTo
  split <;> rfl

theorem pen_follow (t : Turtle) (leg : Leg) : (t.follow leg).pen = t.pen.follow leg := by
  cases leg with
  | ahead distance => exact t.pen_moveTo _
  | straightTo target => exact t.pen_moveTo target
  | left degrees => rfl
  | right degrees => rfl
  | face degrees => rfl

theorem follow_draws (h : t.Consistent) (leg : Leg) : Draws t (t.pen.line? leg).toList (t.follow leg) := by
  have hturn : ∀ heading, Draws t [] { t with heading := heading } := fun heading =>
    unmoved_draws h heading t.visible t.circleSteps
  have hmove : ∀ target, (if t.penDown then [⟨t.position, target, t.penColor, t.penWidth⟩] else []) =
      (if t.penDown then some ⟨t.position, target, t.penColor, t.penWidth⟩ else none : Option Segment).toList := by
    intro target
    split <;> rfl
  have hnone : (if t.penDown then none else none : Option Segment).toList = [] := by
    split <;> rfl
  cases leg with
  | ahead distance => exact hmove _ ▸ moveTo_draws h _
  | straightTo target => exact hmove _ ▸ moveTo_draws h target
  | left degrees => exact hnone.symm ▸ hturn _
  | right degrees => exact hnone.symm ▸ hturn _
  | face degrees => exact hnone.symm ▸ hturn _

/-- What one leg does, all the legs do one after the other. -/
theorem legs_draw (h : t.Consistent) (legs : List Leg) :
    Draws t (t.pen.lines legs) (legs.foldl follow t) ∧ (legs.foldl follow t).pen = legs.foldl Pen.follow t.pen := by
  induction legs generalizing t with
  | nil => exact ⟨.refl h, rfl⟩
  | cons leg rest ih =>
    have hleg := follow_draws h leg
    obtain ⟨hrest, hpen⟩ := ih hleg.consistent
    rw [pen_follow] at hrest hpen
    exact ⟨hleg.trans hrest, hpen⟩

theorem arc_eq_legs (edge turn : Float) (n : Nat) (t : Turtle) :
    t.arc edge turn n = (List.replicate n [Leg.ahead edge, .left turn]).flatten.foldl follow t := by
  induction n generalizing t with
  | zero => rfl
  | succ n ih =>
    rw [arc, ih, List.replicate_succ, List.flatten_cons, List.foldl_append]
    rfl

/-- The path before a change of style is closed, so that the change does not reach back. -/
theorem restyle_draws (h : t.Consistent) (color : Color) (width : Float) :
    Draws t [] { t.restyle with penColor := color, penWidth := width } := by
  unfold restyle
  split
  · rename_i hdown
    refine ⟨⟨by simp [openPath, closePath, hdown, Log.toList], fun _ => rfl, closePath_long h⟩, ?_, ?_⟩
    -- The path opened anew is a single point, which has no line to show the new style.
    · rw [List.append_nil, ← t.segments_closePath, segments_of_short (t := t.closePath) Nat.zero_lt_two]
      exact segments_of_short Nat.one_lt_two
    · simp [openPath, closePath]
  · rename_i hup
    have hshort := short_of_up h hup
    refine ⟨⟨h.current_eq_nil, h.current_ends, h.paths_long⟩, ?_, by simp⟩
    rw [List.append_nil, segments_of_short hshort]
    exact segments_of_short hshort

theorem liftPen_draws (h : t.Consistent) : Draws t [] t.liftPen := by
  have hup : t.liftPen.penDown ≠ true := by simp [liftPen, closePath]
  refine ⟨⟨by simp [liftPen, closePath], (absurd · hup), closePath_long h⟩, ?_, by simp [liftPen, closePath]⟩
  rw [List.append_nil, ← t.segments_closePath]
  rfl

theorem lowerPen_draws (h : t.Consistent) : Draws t [] t.lowerPen := by
  unfold lowerPen
  split
  · exact .refl h
  · rename_i hup
    refine ⟨⟨by simp [openPath, Log.toList], fun _ => rfl, h.paths_long⟩, ?_, by simp [openPath]⟩
    rw [List.append_nil, segments_of_short (short_of_up h hup)]
    exact segments_of_short Nat.one_lt_two

theorem setPenColor_draws (h : t.Consistent) (color : Color) : Draws t [] (t.setPenColor color) := by
  have hstyle := restyle_draws h color t.restyle.penWidth
  unfold setPenColor
  split
  · exact .refl h
  · exact hstyle

theorem setPenSize_draws (h : t.Consistent) (width : Float) : Draws t [] (t.setPenSize width) := by
  have hstyle := restyle_draws h t.restyle.penColor (clampWidth width)
  unfold setPenSize
  split
  · exact .refl h
  · exact hstyle

theorem obey_of_moves (t : Turtle) {order : Order} (hmoves : order.moves = true) :
    t.obey order = (t.pen.legs order).foldl follow t := by
  cases order
  case circle radius => exact arc_eq_legs _ _ _ t
  case liftPen | lowerPen | setPenColor | setPenSize | hide | unhide | setCircleSteps | clear => cases hmoves
  all_goals rfl

/-- Every order but the clearing one adds the lines of its legs. -/
theorem obey_draws (h : t.Consistent) {order : Order} (hclear : order ≠ .clear) :
    Draws t (t.pen.lines (t.pen.legs order)) (t.obey order) := by
  by_cases hmoves : order.moves = true
  · rw [obey_of_moves t hmoves]
    exact (legs_draw h _).1
  · cases order
    case liftPen => exact liftPen_draws h
    case lowerPen => exact lowerPen_draws h
    case setPenColor color => exact setPenColor_draws h color
    case setPenSize width => exact setPenSize_draws h width
    case hide => exact unmoved_draws h t.heading false t.circleSteps
    case unhide => exact unmoved_draws h t.heading true t.circleSteps
    case setCircleSteps steps => exact unmoved_draws h t.heading t.visible (max steps 1)
    case clear => exact absurd rfl hclear
    all_goals exact absurd rfl hmoves

theorem pen_lowerPen (t : Turtle) : t.lowerPen.pen = { t.pen with down := true } := by
  unfold lowerPen
  split
  · rename_i hdown
    rw [← hdown]
    rfl
  · rfl

theorem pen_setPenColor (t : Turtle) (color : Color) : (t.setPenColor color).pen = { t.pen with color := color } := by
  unfold setPenColor restyle
  split
  · rename_i hcolor
    rw [hcolor]
    rfl
  · split <;> rfl

theorem pen_setPenSize (t : Turtle) (width : Float) : (t.setPenSize width).pen = t.pen.obey (.setPenSize width) := by
  change _ = if clampWidth width == t.penWidth then t.pen else { t.pen with width := clampWidth width }
  unfold setPenSize restyle
  split
  · rfl
  · split <;> rfl

theorem pen_obey (h : t.Consistent) (order : Order) : (t.obey order).pen = t.pen.obey order := by
  by_cases hmoves : order.moves = true
  · rw [obey_of_moves t hmoves, t.pen.obey_of_moves hmoves]
    exact (legs_draw h _).2
  · cases order
    case lowerPen => exact t.pen_lowerPen
    case setPenColor color => exact t.pen_setPenColor color
    case setPenSize width => exact t.pen_setPenSize width
    case liftPen | hide | unhide | setCircleSteps | clear => rfl
    all_goals exact absurd rfl hmoves

theorem clear_consistent (t : Turtle) : t.clear.Consistent :=
  ⟨by simp [clear, Log.toList], fun _ => rfl, List.forall_mem_nil _⟩

theorem consistent_obey (h : t.Consistent) (order : Order) : (t.obey order).Consistent := by
  by_cases hclear : order = .clear
  · subst hclear
    exact t.clear_consistent
  · exact (obey_draws h hclear).consistent

/-- The turtle and the plot go on together. -/
theorem plot_obey (h : t.Consistent) (order : Order) : (t.obey order).plot = t.plot.obey order := by
  have hlines : (t.obey order).segments = (t.plot.obey order).lines := by
    by_cases hclear : order = .clear
    · subst hclear
      rfl
    · rw [Plot.lines_obey _ hclear]
      exact (obey_draws h hclear).segments
  rw [plot, pen_obey h, hlines]
  rfl

theorem heard_obey (h : t.Consistent) (order : Order) :
    (t.obey order).heard?.map Log.toList = t.heard?.map fun log => log.toList ++ t.pen.lines (t.pen.legs order) := by
  by_cases hclear : order = .clear
  · subst hclear
    -- The listener keeps what it has heard.
    simp [obey, clear, Pen.legs, Pen.lines]
  · exact (obey_draws h hclear).heard

theorem consistent_run (h : t.Consistent) (orders : List Order) : (t.run orders).Consistent := by
  induction orders generalizing t with
  | nil => exact h
  | cons order rest ih => exact ih (consistent_obey h order)

theorem plot_run (h : t.Consistent) (orders : List Order) : (t.run orders).plot = t.plot.run orders := by
  induction orders generalizing t with
  | nil => rfl
  | cons order rest ih =>
    change ((t.obey order).run rest).plot = (t.plot.obey order).run rest
    rw [ih (consistent_obey h order), plot_obey h]

theorem heard_run (h : t.Consistent) (orders : List Order) :
    (t.run orders).heard?.map Log.toList = t.heard?.map fun log => log.toList ++ t.pen.strokes orders := by
  induction orders generalizing t with
  | nil => simp [run, Pen.strokes]
  | cons order rest ih =>
    have hrest := ih (consistent_obey h order)
    have horder := congrArg (Option.map (· ++ (t.obey order).pen.strokes rest)) (heard_obey h order)
    rw [pen_obey h] at hrest horder
    simp only [Option.map_map, Function.comp_def, List.append_assoc] at horder
    exact hrest.trans horder

theorem styled_consistent (width : Float) (color : Color) : (styled width color).Consistent :=
  ⟨by simp [styled, Log.toList], fun _ => rfl, List.forall_mem_nil _⟩

/-- After any orders the lines of the paths are those of the plot: one for each movement with the pen down since the
last clearing, in the style of its moment. Who listens from then on hears the lines of all later orders. -/
theorem paths_refine_plot (width : Float) (color : Color) (orders later : List Order) :
    ((styled width color).run orders).plot = (Plot.styled width color).run orders ∧
    ((styled width color).run orders).Consistent ∧
    (((styled width color).run orders).listen.run later).heard?.map Log.toList =
      some (((styled width color).run orders).pen.strokes later) := by
  have h := consistent_run (styled_consistent width color) orders
  refine ⟨plot_run (styled_consistent width color) orders, h, ?_⟩
  have hlisten : ((styled width color).run orders).listen.Consistent :=
    ⟨h.current_eq_nil, h.current_ends, h.paths_long⟩
  exact heard_run hlisten later

end Turtle
end Logo
