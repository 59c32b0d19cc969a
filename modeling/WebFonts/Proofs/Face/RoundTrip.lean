import WebFonts.Proofs.Css.Spelling
import WebFonts.Proofs.Face.Plain

/-! # Rules for faces, written and read

What is read from the rule for a face are its descriptors: the family, the sources and the display
strategy as they are, and each other value as it is read on its own. -/

namespace WebFonts

open Css Text

/-! ## Functions and commas -/

theorem number?_of_isAlpha {c : Char} (h : c.isAlpha = true) (rest : List Char) :
    number? (c :: rest) = none := by
  have hsign : sign (c :: rest) = ([], c :: rest) := by
    unfold sign
    split
    · simp_all
    · simp_all
    · rfl
  have hdigits : digits (c :: rest) = ([], c :: rest) := by
    simp [digits, Face.isDigit_of_isAlpha h]
  have hfraction : fraction (c :: rest) = ([], c :: rest) := by
    unfold fraction
    split
    · simp_all
    · rfl
  simp [number?, magnitude?, hsign, hdigits, hfraction]

theorem isQuote_of_isAlpha {c : Char} (h : c.isAlpha = true) : isQuote c = false := by
  rw [Bool.eq_false_iff]
  intro hquote
  simp only [isQuote, Bool.or_eq_true, beq_iff_eq] at hquote
  rcases hquote with rfl | rfl <;> contradiction

/-- A word with parentheses right behind it is a function. -/
theorem token?_call {word : List Char} (hword : Face.isWord word = true) {inner : List Char}
    (hinner : isContained [')'] inner = true) (rest : List Char) :
    token? (word ++ '(' :: (inner ++ ')' :: rest)) =
      some (.function (String.ofList word) (String.ofList inner), rest) := by
  obtain ⟨c, tail, rfl, halpha⟩ := Face.exists_cons_of_isWord hword
  have hquote := isQuote_of_isAlpha halpha
  have hquoted : quoted? (c :: tail ++ '(' :: (inner ++ ')' :: rest)) = none := by
    simp [quoted?, hquote]
  have hname : name ('(' :: (inner ++ ')' :: rest)) = ([], '(' :: (inner ++ ')' :: rest)) := rfl
  have hfunction : function? (c :: tail ++ '(' :: (inner ++ ')' :: rest)) =
      some (.function (String.ofList (c :: tail)) (String.ofList inner), rest) := by
    rw [function?, Face.identifier?_of_isWord hword hname]
    simp only [untilClosed?_of_isContained hinner,
      unescape_of_not_mem (Face.backslash_not_mem_of_isWord hword)]
    rfl
  rw [token?, hquoted, hfunction, List.cons_append, number?_of_isAlpha halpha]
  rfl

theorem tokens?_call {word : List Char} (hword : Face.isWord word = true) {inner : List Char}
    (hinner : isContained [')'] inner = true) (rest : List Char) :
    tokens? (word ++ '(' :: (inner ++ ')' :: rest)) =
      (tokens? rest).map
        (Token.function (String.ofList word) (String.ofList inner) :: ·) := by
  have htoken := token?_call hword hinner rest
  obtain ⟨c, tail, rfl, halpha⟩ := Face.exists_cons_of_isWord hword
  exact tokens?_of_token (gap_of_none (Face.spacing_of_isAlpha halpha false _)) htoken

/-! ## The tokens of sources -/

namespace Source

/-- A hint is the only argument of its function. -/
def hintTokens (name : String) (hint : Option String) : List Token :=
  hint.toList.map (Token.function name)

/-- A source is read as functions: first one with the address or the name as a string. -/
def tokens : Source → List Token
  | remote url format tech =>
    .function "url" (String.ofList (quotedArgument url)) ::
      (hintTokens "format" format ++ hintTokens "tech" tech)
  | installed name => [.function "local" (String.ofList (quotedArgument name))]

/-- Commas stand between the tokens of sources. -/
def tokensAll (sources : List Source) : List Token :=
  List.intercalate [.operator ','] (sources.map tokens)

theorem tokens?_renderHint {name : String} (hname : Face.isWord name.toList = true)
    {hint : Option String}
    (hhint : hint.all (fun text => Css.isContained [')'] text.toList) = true) (rest : List Char) :
    tokens? (renderHint name hint ++ rest) = (tokens? rest).map (hintTokens name hint ++ ·) := by
  cases hint with
  | none => exact Option.map_id'.symm
  | some hint =>
    rw [renderHint, List.cons_append, tokens?_cons rfl, List.append_assoc, List.cons_append,
      List.append_assoc, List.singleton_append, tokens?_call hname hhint]
    simp [hintTokens]

theorem tokens?_render {source : Source} (h : source.isContained = true) (rest : List Char) :
    tokens? (source.render ++ rest) = (tokens? rest).map (source.tokens ++ ·) := by
  cases source with
  | installed name =>
    rw [render_installed, List.append_assoc, List.cons_append, List.append_assoc,
      List.singleton_append,
      tokens?_call (by decide) (isContained_quotedArgument h), String.ofList_toList]
    rfl
  | remote url format tech =>
    simp only [Source.isContained, Bool.and_eq_true] at h
    obtain ⟨⟨hurl, hformat⟩, htech⟩ := h
    rw [render_remote]
    simp only [List.append_assoc, List.cons_append, List.nil_append]
    rw [tokens?_call (by decide) (isContained_quotedArgument hurl),
      tokens?_renderHint (by decide) hformat, tokens?_renderHint (by decide) htech,
      Option.map_map, Option.map_map, String.ofList_toList]
    congr 1
    funext found
    simp [tokens]

theorem tokens?_renderRest {sources : List Source}
    (h : ∀ source ∈ sources, source.isContained = true) :
    tokens? ((sources.map render).flatMap fun text => ", ".toList ++ text) =
      some ((sources.map tokens).flatMap fun found => [.operator ','] ++ found) := by
  induction sources with
  | nil => exact tokens?_of_end (gap_nil false)
  | cons source sources ih =>
    have hrest := ih fun other hmem => h other (List.mem_cons_of_mem _ hmem)
    have hcomma : ", ".toList = [',', ' '] := by simp
    rw [List.map_cons, List.flatMap_cons, hcomma, List.append_assoc, List.cons_append,
      List.singleton_append, tokens?_comma, tokens?_cons rfl,
      tokens?_render (h source List.mem_cons_self), ← hcomma, hrest]
    rfl

theorem tokens?_renderAll {sources : List Source}
    (h : ∀ source ∈ sources, source.isContained = true) :
    tokens? (renderAll sources) = some (tokensAll sources) := by
  cases sources with
  | nil => exact tokens?_of_end (gap_nil false)
  | cons first sources =>
    rw [renderAll, List.map_cons, Face.intercalate_cons,
      tokens?_render (h first List.mem_cons_self),
      tokens?_renderRest fun other hmem => h other (List.mem_cons_of_mem _ hmem), tokensAll,
      List.map_cons, Face.intercalate_cons]
    rfl

/-! ## The end of a `src` descriptor -/

theorem getLast?_call (front inner : List Char) :
    (front ++ '(' :: (inner ++ [')'])).getLast? = some ')' := by
  simp [List.getLast?_cons]

theorem getLast?_renderHint {front : List Char} (hfront : front.getLast? = some ')') (name : String)
    (hint : Option String) : (front ++ renderHint name hint).getLast? = some ')' := by
  cases hint with
  | none => rwa [renderHint, List.append_nil]
  | some hint => simp [renderHint, List.getLast?_cons]

theorem getLast?_render (source : Source) : source.render.getLast? = some ')' := by
  cases source with
  | installed name =>
    rw [render_installed]
    exact getLast?_call _ _
  | remote url format tech =>
    rw [render_remote]
    exact getLast?_renderHint (getLast?_renderHint (getLast?_call _ _) _ _) _ _

theorem getLast?_renderRest {front : List Char} (hfront : front.getLast? = some ')')
    (sources : List Source) :
    (front ++ (sources.map render).flatMap fun text => ", ".toList ++ text).getLast? =
      some ')' := by
  induction sources generalizing front with
  | nil => simpa using hfront
  | cons source sources ih =>
    rw [List.map_cons, List.flatMap_cons, ← List.append_assoc]
    apply ih
    rw [List.getLast?_append, List.getLast?_append, getLast?_render]
    rfl

/-- No list of sources ends in `!important`. -/
theorem cutImportant_renderAll (sources : List Source) :
    cutImportant (renderAll sources) = (renderAll sources, false) := by
  cases sources with
  | nil => rfl
  | cons first sources =>
    have hlast := getLast?_renderRest (getLast?_render first) sources
    rw [← Face.intercalate_cons, ← List.map_cons] at hlast
    obtain ⟨front, hfront⟩ := List.getLast?_eq_some_iff.mp hlast
    rw [renderAll, hfront]
    exact cutImportant_concat (by decide) (by decide) front

end Source

/-! ## The declarations of a rule -/

namespace Face

/-- What a descriptor is read as if its value stands alone. -/
def leafOf (descriptor : String × List Char) : Leaf :=
  .declaration descriptor.1
    (Value.read descriptor.1.toList (cutImportant descriptor.2).1) (cutImportant descriptor.2).2

/-- What is read from the rule for a face. -/
def declared (family : String) (face : Face) : List Leaf :=
  [.declaration "font-family" (.tokens [.string family]) false,
    .declaration "src" (.tokens (Source.tokensAll (face.src.toList.map Entry.toSource))) false,
    .declaration "font-display" (.tokens [.identifier (face.display.getD .swap).keyword]) false] ++
  (face.optionals.flatMap fun descriptor => optional descriptor.1 descriptor.2).map leafOf

theorem toLeaf_declarationAt (place : Nat) (descriptor : String × List Char) :
    (declarationAt place descriptor).toLeaf = leafOf descriptor := by
  rw [Declaration.toLeaf, declarationAt, leafOf, cutImportant_cons rfl, Value.read_cons rfl]

theorem map_toLeaf_declarationsFrom (place : Nat) (found : List (String × List Char)) :
    (declarationsFrom place found).map Declaration.toLeaf = found.map leafOf := by
  induction found generalizing place with
  | nil => rfl
  | cons descriptor found ih =>
    rw [declarationsFrom, List.map_cons, List.map_cons, toLeaf_declarationAt, ih]

theorem leafOf_family {family : String} (h : isQuotable family = true) :
    leafOf ("font-family", '\'' :: (family.toList ++ ['\''])) =
      .declaration "font-family" (.tokens [.string family]) false := by
  have hcut : cutImportant ('\'' :: (family.toList ++ ['\''])) =
      ('\'' :: (family.toList ++ ['\'']), false) :=
    cutImportant_concat (by decide) (by decide) ('\'' :: family.toList)
  have hvalue := value_family h
  rw [cutImportant_cons rfl, Value.read_cons rfl] at hvalue
  rw [leafOf, hvalue, hcut]

theorem leafOf_src {sources : List Source} (h : ∀ source ∈ sources, source.isContained = true) :
    leafOf ("src", Source.renderAll sources) =
      .declaration "src" (.tokens (Source.tokensAll sources)) false := by
  have hcustom : ¬"--".toList.isPrefixOf "src".toList := by decide
  rw [leafOf, Source.cutImportant_renderAll, Value.read, if_neg hcustom,
    Source.tokens?_renderAll h]

theorem leafOf_display (display : Display) :
    leafOf ("font-display", display.keyword.toList) =
      .declaration "font-display" (.tokens [.identifier display.keyword]) false := by
  cases display <;> decide +kernel

theorem map_leafOf_descriptors {family : String} (hfamily : isQuotable family = true)
    {face : Face} (hface : face.isContained = true) :
    (face.descriptors family).map leafOf = face.declared family := by
  have hsources := isContained_sources hface
  rw [descriptors, details_eq, List.map_cons, List.map_append, leafOf_family hfamily, List.map_cons,
    leafOf_src hsources, List.map_cons, leafOf_display]
  rfl

/-- The rule for a face is read as one block that takes all of its text. Its declarations are the
family, the sources and the display strategy, and behind them the other descriptors that are set,
each with the value that its text has alone. -/
theorem parse_render_declared {family : String} (hfamily : isQuotable family = true) {face : Face}
    (hface : face.isContained = true) :
    ∃ declarations : List Declaration,
      Stylesheet.parse (face.render family).toList =
        .ok ⟨[.block (.atRule "font-face" "") (declarations.map .declaration)
          ⟨0, utf8Width (face.render family).toList⟩]⟩ ∧
      declarations.map Declaration.toLeaf = face.declared family := by
  refine ⟨declarationsFrom 12 (face.descriptors family), ?_, ?_⟩
  · rw [parse_render_of_isContained hfamily hface, toList_render]
    rfl
  · rw [map_toLeaf_declarationsFrom, map_leafOf_descriptors hfamily hface]

/-- A face with a source of each kind, and values with brackets, strings, escapes and a priority. -/
def mixedFace : Face where
  src := .list [.shorthand "/é.woff2", .shorthand "Local; \x7b(\x7d",
    .source (.remote "data:a,b;)'" (some "x [;] \")\x7b\" \\)") (some ""))]
  weight := some "100 900 ! IMPORTANT"
  style := some ""
  display := none
  unicodeRange := some "U+0-7F, [ ;)\"\x7d\"] \\\x7d"
  featureSettings := some "\"smcp\" 1"
  variationSettings := none

theorem parse_render_declared_mixed :
    isQuotable "A \"b\" \x7bé;" = true ∧ mixedFace.isContained = true ∧
      (∃ declarations : List Declaration,
        Stylesheet.parse (mixedFace.render "A \"b\" \x7bé;").toList =
          .ok ⟨[.block (.atRule "font-face" "") (declarations.map .declaration)
            ⟨0, utf8Width (mixedFace.render "A \"b\" \x7bé;").toList⟩]⟩ ∧
        declarations.map Declaration.toLeaf = mixedFace.declared "A \"b\" \x7bé;") ∧
      mixedFace.declared "A \"b\" \x7bé;" =
        [.declaration "font-family" (.tokens [.string "A \"b\" \x7bé;"]) false,
          .declaration "src" (.tokens [.function "url" "\"/é.woff2\"", .function "format" "woff2",
            .operator ',', .function "local" "\"Local; \x7b(\x7d\"", .operator ',',
            .function "url" "\"data:a,b;)'\"", .function "format" "x [;] \")\x7b\" \\)",
            .function "tech" ""]) false,
          .declaration "font-display" (.tokens [.identifier "swap"]) false,
          .declaration "unicode-range" (.tokens [.identifier "U", .number "+0", .number "-7F",
            .operator ',', .group '[' " ;)\"\x7d\"", .identifier "\x7d"]) false,
          .declaration "font-weight" (.tokens [.number "100", .number "900"]) true,
          .declaration "font-feature-settings" (.tokens [.string "smcp", .number "1"]) false] := by
  have hfamily : isQuotable "A \"b\" \x7bé;" = true := by decide
  have hface : mixedFace.isContained = true := by decide +kernel
  exact ⟨hfamily, hface, parse_render_declared hfamily hface, by decide +kernel⟩

end Face

end WebFonts
