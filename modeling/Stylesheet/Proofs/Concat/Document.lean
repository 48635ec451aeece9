import Stylesheet.Proofs.Concat.Rules
import Stylesheet.Proofs.Concat.Tokens
import Stylesheet.Proofs.Canonical
import Stylesheet.Proofs.Placement.Document
import Stylesheet.Proofs.Position

/-!
# Style sheets in two parts

Where the blocks of a text are closed and it ends with a block in curly brackets, no error in it
reaches beyond its end: with another text behind it, it is read as the two texts are read one after
the other. Only the numbers of the nodes and the lines and columns of later errors depend on what
stands in front.
-/

namespace Stylesheet

/-- The blocks of a text are closed, and its last token closes a curly bracket. As the blocks are
closed, that bracket stands in no other block. -/
structure TokenList.EndsInBlock (list : TokenList) : Prop extends list.Closed where
  last : ∃ (i : Nat) (t : Token), list.tokens[i]? = some t ∧ t.kind = .leftCurly ∧
    list.close? i = some (list.tokens.length - 1)

namespace TokenList.EndsInBlock

open Token

variable {x : String}

theorem ne_nil {list : TokenList} (h : list.EndsInBlock) : list.tokens ≠ [] := by
  obtain ⟨i, t, found, -, -⟩ := h.last
  intro nothing
  rw [nothing] at found
  cases found

theorem blockLast (h : (tokenize x).EndsInBlock) : BlockLast (tokenize x).tokens := by
  have closed := h.toClosed.tokens
  obtain ⟨i, t, found, curly, close⟩ := h.last
  rw [close?, found] at close
  generalize (tokenize x).tokens = ts at closed found close
  obtain ⟨n, inside, last⟩ := Option.map_eq_some_iff.mp close
  obtain ⟨bound, at_i⟩ := List.getElem?_eq_some_iff.mp found
  -- Between the bracket and the last token stand as many tokens as the bracket says.
  have rest : (ts.drop (i + 1)).length = n + 1 := by
    rw [List.length_drop]
    omega
  obtain nothing | ⟨inner, closer, split⟩ := List.eq_nil_or_concat (ts.drop (i + 1))
  · rw [nothing] at rest
    cases rest
  · rw [List.concat_eq_append] at split
    rw [split, List.length_append, List.length_singleton, Nat.add_right_cancel_iff] at rest
    have whole : ts = ts.take i ++ t :: (inner ++ [closer]) := by
      rw [← split, ← at_i, ← List.drop_eq_getElem_cons bound, List.take_append_drop]
    rw [whole] at closed ⊢
    exact .of_closed closed curly (rest ▸ inside)

theorem complete (h : (tokenize x).EndsInBlock) : (tokenize x).Complete := by
  obtain ⟨t, last, curly⟩ := h.blockLast.getLast_kind h.ne_nil
  exact { h.toClosed with ends := ⟨t, last, by rw [curly]; rfl⟩ }

end TokenList.EndsInBlock

/-! ### Rules -/

namespace Grammar

variable {x y : String}

/-- The rules of both texts are those of the one and of the other, shifted. -/
theorem ruleList_tokenize_append (h : (tokenize x).EndsInBlock) (y : String) :
    ruleList true false false (wholeScope (tokenize (x ++ y))) =
      (ruleList true false false (wholeScope (tokenize x))).append
        ((ruleList true false false (wholeScope (tokenize y))).shiftAll x.utf8ByteSize) := by
  have behind : wholeScope (tokenize (x ++ y)) =
      ⟨(tokenize x).tokens ++ ((wholeScope (tokenize y)).shift x.utf8ByteSize).tokens,
        ((wholeScope (tokenize y)).shift x.utf8ByteSize).next⟩ := by
    rw [h.complete.tokenize_append y, wholeScope, Nat.add_comm]
    rfl
  rw [behind, ruleList_append true false false h.blockLast, ruleList_shift]
  rfl

/-- All errors in the first text are found before its end. -/
theorem ruleList_tokenize_foundBefore (h : (tokenize x).EndsInBlock) :
    FoundBefore x.utf8ByteSize
      (ruleList true false false (wholeScope (tokenize x))).errors := by
  obtain ⟨run, size⟩ := tokenize_run x
  have starts : (wholeScope (tokenize x)).start = 0 := run.startOf_eq
  have lies : (wholeScope (tokenize x)).LiesIn x := by
    rw [Scope.LiesIn, starts]
    exact run
  rw [← size]
  exact ruleList_foundBefore x true false false (wholeScope (tokenize x)) h.blockLast lies
    (TokenList.text_ne h.full)

end Grammar

/-! ### Nodes -/

/-- What a mark says about the place of a node, `k` bytes further on. -/
def Mark.placeAt (k : Nat) (m : Mark) : SpanProvenance × Option Span :=
  (m.provenance, m.span.map (Span.shift k))

/-- What is known about a node that was read at a place, with spans or without. -/
def Located.known (spans : Bool) (place : Span) : SpanProvenance × Option Span :=
  if spans then (.input, some place) else (.none, none)

namespace Node

open Located

variable {text : String} {spans : Bool} {k next : Nat}

theorem placeAt_ofPlace {place : Span} (h : place.LiesIn text) (id : Nat) :
    (Mark.ofPlace text.utf8ByteSize id (if spans then some place else none)).placeAt k =
      known spans (place.shift k) := by
  cases spans with
  | false => rfl
  | true =>
    rw [if_pos rfl, ofPlace_some h]
    rfl

mutual

/-- Numbering a placed tree keeps what is known about its nodes. -/
theorem numberFrom_placeAt : ∀ (n : Located) (next : Nat), Placed text n →
    ((n.map fun place => if spans then some place else none).numberFrom text.utf8ByteSize
        next).1.map (Mark.placeAt k) = (n.shift k).map (known spans)
  | ⟨kind, detail, place, children⟩, next, h => by
    obtain ⟨lies, placed⟩ := placed_iff.mp h
    rw [map, numberFrom, map, numberAllFrom_placeAt children _ _ _ placed, placeAt_ofPlace lies,
      shift_mk, map]

theorem numberAllFrom_placeAt : ∀ (ns : List Located) (next lo hi : Nat), PlacedIn text lo hi ns →
    mapAll (Mark.placeAt k) (numberAllFrom text.utf8ByteSize next
        (mapAll (fun place => if spans then some place else none) ns)).1 =
      mapAll (known spans) (ns.map (shift k))
  | [], _, _, _, _ => rfl
  | n :: ns, next, lo, hi, h => by
    obtain ⟨-, -, hn, hns⟩ := placedIn_cons.mp h
    rw [mapAll, numberAllFrom, mapAll, numberFrom_placeAt n next hn,
      numberAllFrom_placeAt ns _ _ _ hns, List.map_cons, mapAll]

end

/-- A style sheet is written rule by rule. -/
theorem canonical_styleSheet {α : Type} (note : α) (children : List (Node α)) :
    (Node.mk .styleSheet .none note children).canonical = String.join (children.map canonical) := by
  have texts : (canonical : Node α → String) = fun n => n.padCustom.generate := funext canonical_eq
  rw [canonical_eq, padCustom, generate, generateAll_eq_map, texts]
  show String.join (List.map _ (List.map _ _)) = _
  rw [List.map_map]
  show String.join (List.map _ (padCustomAll children)) = _
  rw [padCustomAll_eq_map, List.map_map]
  rfl

theorem map_canonical {α β : Type} (f : α → β) (ns : List (Node α)) :
    (ns.map (map f)).map canonical = ns.map canonical := by
  rw [List.map_map]
  exact List.map_congr_left fun n _ => canonical_map f n

end Node

namespace Document

variable {x : String}

/-- What is known about the nodes below a style sheet is what its rules say. -/
theorem treeOf_children (text : String) (spans : Bool) (k : Nat) :
    (treeOf spans .stylesheet (tokenize text)).value.children.map (Node.map (Mark.placeAt k)) =
      ((Grammar.ruleList true false false (Grammar.wholeScope (tokenize text))).value.map
        (Located.shift k)).map (Node.map (Located.known spans)) := by
  obtain ⟨run, size⟩ := tokenize_run text
  have placed := Grammar.readScope_placed .stylesheet run
  obtain ⟨-, children⟩ := Located.placed_iff.mp placed
  rw [← Node.mapAll_eq_map, ← Node.mapAll_eq_map, treeOf_eq, size]
  exact Node.numberAllFrom_placeAt _ _ _ _ children

theorem treeOf_children_append (hx : (tokenize x).EndsInBlock) (y : String) (spans : Bool) :
    (treeOf spans .stylesheet (tokenize (x ++ y))).value.children.map
        (Node.map (Mark.placeAt 0)) =
      (treeOf spans .stylesheet (tokenize x)).value.children.map (Node.map (Mark.placeAt 0)) ++
        (treeOf spans .stylesheet (tokenize y)).value.children.map
          (Node.map (Mark.placeAt x.utf8ByteSize)) := by
  rw [treeOf_children, treeOf_children, treeOf_children, Grammar.ruleList_tokenize_append hx y,
    Parsed.append, Located.map_shift_zero, Located.map_shift_zero, List.map_append]
  rfl

theorem canonical_treeOf (text : String) (spans : Bool) :
    (treeOf spans .stylesheet (tokenize text)).value.canonical =
      String.join ((treeOf spans .stylesheet (tokenize text)).value.children.map Node.canonical) := by
  rw [treeOf_eq]
  exact Node.canonical_styleSheet _ _

/-- As rules are written alike wherever they stand, both texts are written one after the other. -/
theorem canonical_treeOf_append (hx : (tokenize x).EndsInBlock) (y : String) (spans : Bool) :
    (treeOf spans .stylesheet (tokenize (x ++ y))).value.canonical =
      (treeOf spans .stylesheet (tokenize x)).value.canonical ++
        (treeOf spans .stylesheet (tokenize y)).value.canonical := by
  rw [canonical_treeOf, canonical_treeOf, canonical_treeOf, ← String.join_append,
    ← Node.map_canonical (Mark.placeAt 0), treeOf_children_append hx, List.map_append,
    Node.map_canonical, Node.map_canonical]

end Document

/-! ### Errors -/

/-- What is wrong and where, `k` bytes further on. -/
def ParseError.foundAt (k : Nat) (e : ParseError) : Fault × Span := (e.fault, e.span.shift k)

namespace Document

variable {x y : String}

theorem locate_append (text : String) (es fs : List SyntaxError) :
    locate text (es ++ fs) = locate text es ++ locate text fs :=
  List.map_append

/-- Errors found before the end of a text are reported alike if something follows it. -/
theorem locate_front {es : List SyntaxError} (h : Grammar.FoundBefore x.utf8ByteSize es)
    (y : String) : locate (x ++ y) es = locate x es := by
  refine List.map_congr_left fun e he => ?_
  have before := h e he
  rw [ParseError.ofSyntax, ParseError.ofSyntax, Text.LineIndex.size_ofString,
    Text.LineIndex.size_ofString, String.utf8ByteSize_append,
    Text.LineIndex.position_append y (Nat.le_of_lt before)]
  congr 2 <;> omega

/-- Errors in a text are reported further on if something stands before it. -/
theorem locate_shift (x : String) (es : List SyntaxError) :
    (locate (x ++ y) (es.map (.shift x.utf8ByteSize))).map (ParseError.foundAt 0) =
      (locate y es).map (ParseError.foundAt x.utf8ByteSize) := by
  rw [locate, locate, List.map_map, List.map_map, List.map_map]
  refine List.map_congr_left fun e _ => ?_
  simp only [Function.comp_apply, ParseError.foundAt, ParseError.ofSyntax, SyntaxError.shift,
    Span.shift, Text.LineIndex.size_ofString, String.utf8ByteSize_append]
  congr 2 <;> omega

/-- Where nothing is nested too deeply, what is wrong with a style sheet is found in its rules. -/
theorem treeOf_errors {text : String} (full : (tokenize text).truncated = []) (spans : Bool) :
    (treeOf spans .stylesheet (tokenize text)).errors =
      (Grammar.ruleList true false false (Grammar.wholeScope (tokenize text))).errors := by
  have errors : (treeOf spans .stylesheet (tokenize text)).errors =
      ((tokenize text).truncated.map fun offset => ⟨.nestingTooDeep, offset⟩) ++
        (Grammar.ruleList true false false (Grammar.wholeScope (tokenize text))).errors := rfl
  rw [errors, full]
  rfl

/-- The errors in the first text stay as they are, and those in the other follow them. -/
theorem locate_treeOf_append (hx : (tokenize x).EndsInBlock) (hy : (tokenize y).truncated = [])
    (spans : Bool) :
    ∃ es, locate (x ++ y) (treeOf spans .stylesheet (tokenize (x ++ y))).errors =
        locate x (treeOf spans .stylesheet (tokenize x)).errors ++ es ∧
      es.map (ParseError.foundAt 0) =
        (locate y (treeOf spans .stylesheet (tokenize y)).errors).map
          (ParseError.foundAt x.utf8ByteSize) := by
  have full : (tokenize (x ++ y)).truncated = [] := by
    rw [hx.complete.tokenize_append y, hy]
    rfl
  rw [treeOf_errors hx.full, treeOf_errors hy, treeOf_errors full,
    Grammar.ruleList_tokenize_append hx y, Parsed.append, locate_append,
    locate_front (Grammar.ruleList_tokenize_foundBefore hx)]
  exact ⟨_, rfl, locate_shift x _⟩

end Document

open Document in
/-- Behind a text whose blocks are closed and that ends with a block in curly brackets, every text
is read as if it stood alone, whatever is wrong with either. Without limits both can be read
together. The rules are those of the one text and those of the other, further on; so are the errors;
and so the canonical text of both is the one canonical text followed by the other. -/
theorem parse_append {x y : String} (hx : (tokenize x).EndsInBlock)
    (hy : (tokenize y).truncated = []) (options : ParseOptions) (clockx clocky clock : Clock) :
    (∃ dx dy d, parse x { options with budgets := {} } clockx = .ok dx ∧
        parse y { options with budgets := {} } clocky = .ok dy ∧
        parse (x ++ y) { options with budgets := {} } clock = .ok d) ∧
      ∀ dx dy d, parse x options clockx = .ok dx → parse y options clocky = .ok dy →
        parse (x ++ y) options clock = .ok d →
          d.root.children.map (Node.map (Mark.placeAt 0)) =
              dx.root.children.map (Node.map (Mark.placeAt 0)) ++
                dy.root.children.map (Node.map (Mark.placeAt x.utf8ByteSize)) ∧
            (∃ es, d.errors = dx.errors ++ es ∧ es.map (ParseError.foundAt 0) =
              dy.errors.map (ParseError.foundAt x.utf8ByteSize)) ∧
            d.root.canonical = dx.root.canonical ++ dy.root.canonical := by
  constructor
  · obtain ⟨dx, readx⟩ := exists_parse x options clockx
    obtain ⟨dy, ready⟩ := exists_parse y options clocky
    obtain ⟨d, read⟩ := exists_parse (x ++ y) options clock
    exact ⟨dx, dy, d, readx, ready, read⟩
  intro dx dy d readx ready read
  rw [parse_root readx, parse_root ready, parse_root read, parse_errors readx, parse_errors ready,
    parse_errors read]
  exact ⟨treeOf_children_append hx y _, locate_treeOf_append hx hy _,
    canonical_treeOf_append hx y _⟩

/-- A declaration without a colon before a block that is never closed. -/
theorem parse_append_faulty :
    ∃ dx dy d, parse "a\x7bb\x7d" {} = .ok dx ∧ parse "c\x7bd:e" {} = .ok dy ∧
      parse ("a\x7bb\x7d" ++ "c\x7bd:e") {} = .ok d ∧
      d.root.canonical = dx.root.canonical ++ dy.root.canonical := by
  have hx : (tokenize "a\x7bb\x7d").EndsInBlock :=
    { full := by decide +kernel
      closed := by decide +kernel
      last := ⟨1, ⟨.leftCurly, "\x7b", 1, none, some 1, ""⟩, by decide +kernel, rfl,
        by decide +kernel⟩ }
  have hy : (tokenize "c\x7bd:e").truncated = [] := by decide +kernel
  obtain ⟨⟨dx, dy, d, readx, ready, read⟩, joined⟩ := parse_append hx hy {} {} {} {}
  exact ⟨dx, dy, d, readx, ready, read, (joined dx dy d readx ready read).2.2⟩

end Stylesheet
