import WebFonts.Css.Visit

/-! # Where declarations stand

Each declaration of a stylesheet with all blocks around it. What a visit tells of these is the
innermost of either kind. -/

namespace WebFonts.Css

/-- A declaration with the heads and the spans of all blocks around it, innermost first. -/
structure Site where
  declaration : Declaration
  around : List (Head × Span)
  deriving DecidableEq, Repr

mutual

/-- The declarations in a node that has blocks around it, in the order of the text. -/
def Node.sites (around : List (Head × Span)) : Node → List Site
  | .declaration found => [⟨found, around⟩]
  | .statement .. => []
  | .block head body span => sitesAll ((head, span) :: around) body

/-- The declarations in a list of nodes that has blocks around it, in the order of the text. -/
def Node.sitesAll (around : List (Head × Span)) : List Node → List Site
  | [] => []
  | node :: nodes => node.sites around ++ sitesAll around nodes

end

/-- The declarations of a stylesheet, in the order of the text. -/
def Stylesheet.sites (sheet : Stylesheet) : List Site := Node.sitesAll [] sheet.rules

/-- The name and prelude of an at-rule. -/
def Head.atRule? : Head → Option (String × String)
  | .atRule name prelude => some (name, prelude)
  | .qualified _ => none

/-- The prelude of a rule that is not an at-rule. -/
def Head.qualified? : Head → Option String
  | .atRule .. => none
  | .qualified prelude => some prelude

/-- The innermost block of either kind among blocks. -/
def Context.ofBlocks (around : List (Head × Span)) : Context :=
  ⟨around.findSome? (·.1.atRule?), around.findSome? (·.1.qualified?)⟩

/-- A declaration with the innermost block of either kind around it. -/
def Site.toVisit (site : Site) : Visit := ⟨site.declaration, .ofBlocks site.around⟩

theorem Context.enter_ofBlocks (around : List (Head × Span)) (head : Head) (span : Span) :
    (ofBlocks around).enter head = ofBlocks ((head, span) :: around) := by
  cases head <;> rfl

mutual

theorem Node.visits_ofBlocks (around : List (Head × Span)) (node : Node) :
    node.visits (.ofBlocks around) = (node.sites around).map Site.toVisit := by
  cases node with
  | declaration found => rfl
  | statement name prelude span => rfl
  | block head body span =>
    rw [visits, Context.enter_ofBlocks around head span, sites]
    exact Node.visitsAll_ofBlocks ((head, span) :: around) body

theorem Node.visitsAll_ofBlocks (around : List (Head × Span)) (nodes : List Node) :
    visitsAll (.ofBlocks around) nodes = (sitesAll around nodes).map Site.toVisit := by
  cases nodes with
  | nil => rfl
  | cons node nodes =>
    rw [visitsAll, sitesAll, List.map_append, Node.visits_ofBlocks around node,
      Node.visitsAll_ofBlocks around nodes]

end

/-- A stylesheet is visited site by site. -/
theorem Stylesheet.visits_eq_map_sites (sheet : Stylesheet) :
    sheet.visits = sheet.sites.map Site.toVisit :=
  Node.visitsAll_ofBlocks [] sheet.rules

end WebFonts.Css
