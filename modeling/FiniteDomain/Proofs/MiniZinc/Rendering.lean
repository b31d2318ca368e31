import FiniteDomain.Proofs.MiniZinc.Meaning
import FiniteDomain.Proofs.MiniZinc.Readability

/-!
# Rendering loses no meaning

The text of an expression is the text of a phrase that means the value of the expression, and the
text of a constraint that of one that means its truth value. Phrases can be read back, so two
expressions or constraints with the same text have the same meaning.
-/

namespace FiniteDomain.MiniZinc

open Text

/-- If every item is related to something then the items are related to a list, one by one. -/
theorem exists_forall₂ {α β : Type} {R : α → β → Prop} {as : List α}
    (h : ∀ a ∈ as, ∃ b, R a b) : ∃ bs, List.Forall₂ R as bs := by
  induction as with
  | nil => exact ⟨[], .nil⟩
  | cons a as ih =>
      obtain ⟨⟨b, hb⟩, h⟩ := List.forall_mem_cons.mp h
      obtain ⟨bs, hbs⟩ := ih h
      exact ⟨b :: bs, .cons hb hbs⟩

/-- Related items have images in common, and so have the lists. -/
theorem map_eq_map_of_forall₂ {α β γ : Type} {R : α → β → Prop} {f : α → γ} {g : β → γ}
    (hfg : ∀ {a b}, R a b → g b = f a) {as : List α} {bs : List β}
    (h : List.Forall₂ R as bs) : bs.map g = as.map f := by
  induction h with
  | nil => rfl
  | cons hab _ ih => rw [List.map_cons, List.map_cons, hfg hab, ih]

/-- What is related to the same item has one image, and so have the lists. -/
theorem map_eq_map_of_common {α β γ δ : Type} {R : α → β → Prop} {S : α → γ → Prop} {f : γ → δ}
    {g : β → δ} (hfg : ∀ {a b c}, R a b → S a c → g b = f c) {as : List α} {bs : List β}
    {cs : List γ} (h : List.Forall₂ R as bs) (h' : List.Forall₂ S as cs) :
    bs.map g = cs.map f := by
  induction h generalizing cs with
  | nil =>
      cases h'
      rfl
  | cons hab _ ih =>
      cases h' with
      | cons hac h' => rw [List.map_cons, List.map_cons, hfg hab hac, ih h']

theorem toList_arrayOf (items : List String) :
    (arrayOf items).toList = '[' :: (separatedByCommas (items.map String.toList) ++ [']']) := by
  rw [arrayOf, joined, String.toList_append, String.toList_append, String.toList_intercalate]
  rfl

theorem toList_parenthesised_true (text : String) :
    (parenthesised true text).toList = '(' :: (text.toList ++ [')']) := by
  simp [parenthesised]

variable {names : Names} {owner : List Char → Option VarId} {σ : Assignment} {shape : Shape}

/-- The variable has a name, by which it is known. -/
structure Known (names : Names) (owner : List Char → Option VarId) (id : VarId) : Prop where
  isName : IsName (names id).toList
  owner_eq : owner (names id).toList = some id

/-- The phrase is the text of the expression, and means its value. -/
structure Says (owner : List Char → Option VarId) (text : String) (e : Expr) (p : Phrase shape) :
    Prop where
  chars_eq : p.chars = text.toList
  value_eq : ∀ {σ v}, e.evaluate σ = .ok v → p.value (lexicon owner σ) = some v
  /-- Only the items of a circuit are shifted. -/
  node_eq : ∀ ρ, p.node ρ = p.value ρ

/-- The phrase is the text of the constraint, and means its truth value. -/
structure States (owner : List Char → Option VarId) (text : String) (c : Constraint)
    (p : Phrase shape) : Prop where
  chars_eq : p.chars = text.toList
  truth_eq : ∀ {σ b}, c.evaluate σ = .ok b → p.truth (lexicon owner σ) = some b

/-! ## Literals -/

section Literals

variable {l : Literal} {id : VarId}

theorem value_name (h : Known names owner id) :
    lexicon owner σ h.isName.word.chars = σ id := lexicon_name h.isName h.owner_eq

theorem evaluate_of_not_negated (h : l.negated = false) {v : Int} (hv : l.evaluate σ = .ok v) :
    σ l.var.id = some v := by
  rw [Literal.evaluate, bind_eq_ok_iff] at hv
  obtain ⟨x, hx, hv⟩ := hv
  rw [orUndefined_eq_ok_iff] at hx
  simpa [h, hx, pure, Except.pure] using hv

theorem evaluate_of_negated (h : l.negated = true) {v : Int} (hv : l.evaluate σ = .ok v) :
    ∃ x, σ l.var.id = some x ∧ v = 1 - x := by
  rw [Literal.evaluate, bind_eq_ok_iff] at hv
  obtain ⟨x, hx, hv⟩ := hv
  rw [orUndefined_eq_ok_iff] at hx
  refine ⟨x, hx, ?_⟩
  simp only [h, Bool.not_true, Bool.false_eq_true, if_false] at hv
  split at hv
  · exact (Except.ok.inj hv).symm
  · cases hv

/-- The text of a literal means its value and, as a constraint, that it is not 0. -/
theorem exists_literal (h : Known names owner l.var.id) :
    ∃ p : Phrase .whole, p.chars = (renderLiteral names l).toList ∧ (∀ ρ, p.node ρ = p.value ρ) ∧
      ∀ {σ v}, l.evaluate σ = .ok v →
        p.value (lexicon owner σ) = some v ∧ p.truth (lexicon owner σ) = some (v != 0) := by
  cases hneg : l.negated with
  | false =>
      refine ⟨.plain (.word h.isName.word), ?_, fun _ => rfl, fun {σ v} hv => ?_⟩
      · rw [renderLiteral, hneg]
        rfl
      · have hvalue := (value_name h).trans (evaluate_of_not_negated hneg hv)
        rw [Phrase.value_plain, Phrase.value_word, Phrase.truth_plain, Phrase.truth_word, hvalue]
        exact ⟨rfl, rfl⟩
  | true =>
      refine ⟨.negation h.isName.word, ?_, fun _ => rfl, fun {σ v} hv => ?_⟩
      · rw [renderLiteral, hneg, if_pos rfl, String.toList_append]
        rfl
      · obtain ⟨x, hx, rfl⟩ := evaluate_of_negated hneg hv
        have hvalue := (value_name h).trans hx
        rw [Phrase.value_negation, Phrase.truth_negation, hvalue]
        exact ⟨rfl, rfl⟩

end Literals

/-! ## Expressions -/

/-- An atom that is no negated literal is one operand. -/
theorem exists_operand_atom {a : Atom} (h : ∀ x ∈ a.vars, Known names owner x.id)
    (hcompound : isCompound (.atom a) = false) :
    ∃ o : Phrase .operand, Says owner (renderAtom names a) (.atom a) o := by
  cases a with
  | int x =>
      have hx := h (.int x) (by simp [Atom.vars])
      refine ⟨.word hx.isName.word, rfl, fun {σ v} hv => ?_, fun _ => rfl⟩
      rw [Expr.evaluate, Atom.evaluate, orUndefined_eq_ok_iff] at hv
      exact (value_name hx).trans hv
  | literal l =>
      have hl := h (.bool l.var) (by simp [Atom.vars])
      refine ⟨.word hl.isName.word, ?_, fun {σ v} hv => ?_, fun _ => rfl⟩
      · rw [renderAtom, renderLiteral, show l.negated = false from hcompound]
        rfl
      · rw [Expr.evaluate, Atom.evaluate] at hv
        exact (value_name hl).trans (evaluate_of_not_negated hcompound hv)
  | constant value =>
      refine ⟨number value, ?_, fun {σ v} hv => ?_, fun ρ => ?_⟩
      · rw [chars_number, renderAtom, toList_toString_int]
      · rw [Expr.evaluate, Atom.evaluate] at hv
        rw [value_number, Except.ok.inj hv]
      · rw [number]
        split <;> rfl
  | bool value =>
      refine ⟨.word (boolWord value), rfl, fun {σ v} hv => ?_, fun _ => rfl⟩
      rw [Expr.evaluate, Atom.evaluate] at hv
      rw [Phrase.value_word, lexicon_bool, Except.ok.inj hv]

/-- What is compound is put into parentheses. -/
theorem exists_operand {e : Expr} (h : ∀ x ∈ writtenIn e, Known names owner x.id)
    (he : ∃ p : Phrase .whole, Says owner (renderExpr names e) e p) :
    ∃ o : Phrase .operand, Says owner (renderOperand names e) e o := by
  rw [renderOperand_eq]
  cases hcompound : isCompound e with
  | true =>
      obtain ⟨p, hp⟩ := he
      refine ⟨.group p, ?_, hp.value_eq, fun _ => rfl⟩
      rw [Phrase.chars_group, hp.chars_eq, toList_parenthesised_true]
  | false =>
      cases e with
      | atom a =>
          rw [writtenIn] at h
          rw [renderExpr_atom]
          exact exists_operand_atom h hcompound
      | _ => cases hcompound

section Lists

variable {text : Expr → String} {es : List Expr} {ps : List (Phrase shape)}

/-- The phrases are the texts of the expressions, and mean their values. -/
abbrev AllSay (owner : List Char → Option VarId) (text : Expr → String) :
    List Expr → List (Phrase shape) → Prop :=
  List.Forall₂ fun e p => Says owner (text e) e p

theorem chars_of_allSay (h : AllSay owner text es ps) :
    ps.map Phrase.chars = (es.map text).map String.toList := by
  rw [List.map_map]
  exact map_eq_map_of_forall₂ (fun hp => hp.chars_eq) h

theorem values_of_allSay (h : AllSay owner text es ps) {vs : List Int}
    (hvs : Expr.Values σ es vs) : ps.map (Phrase.value (lexicon owner σ)) = vs.map some :=
  map_eq_map_of_common (fun hp hv => hp.value_eq hv) h hvs

theorem nodes_of_allSay (h : AllSay owner text es ps) (ρ : Lexicon) :
    ps.map (Phrase.node ρ) = ps.map (Phrase.value ρ) := by
  induction h with
  | nil => rfl
  | cons hp _ ih => rw [List.map_cons, List.map_cons, hp.node_eq, ih]

end Lists

/-- The products of a weighted sum. -/
theorem exists_products {weights : List Int} {es : List Expr}
    (h : ∀ e ∈ es.take weights.length,
      ∃ o : Phrase .operand, Says owner (renderOperand names e) e o) :
    ∃ ps : List (Phrase .whole),
      ps.map Phrase.chars = (renderProducts names weights es).map String.toList ∧
        ∀ {σ vs}, Expr.Values σ (es.take weights.length) vs →
          ps.map (Phrase.value (lexicon owner σ)) =
            (List.zipWith (· * ·) weights vs).map some := by
  induction es generalizing weights with
  | nil =>
      refine ⟨[], by simp [renderProducts], fun {σ vs} hvs => ?_⟩
      rw [List.take_nil] at hvs
      cases hvs
      simp
  | cons e es ih =>
      cases weights with
      | nil => exact ⟨[], by simp [renderProducts], by simp⟩
      | cons w ws =>
          rw [List.length_cons, List.take_succ_cons, List.forall_mem_cons] at h
          obtain ⟨⟨o, ho⟩, h⟩ := h
          obtain ⟨ps, hchars, hvalues⟩ := ih h
          refine ⟨.binary .times (number w) o :: ps, ?_, fun {σ vs} hvs => ?_⟩
          · rw [renderProducts, List.map_cons, List.map_cons, hchars, Phrase.chars_binary,
              chars_number, ho.chars_eq, String.toList_append, String.toList_append,
              toList_toString_int, List.append_assoc]
            rfl
          · rw [List.length_cons, List.take_succ_cons] at hvs
            cases hvs with
            | cons hv hvs =>
                rw [List.map_cons, hvalues hvs, Phrase.value_binary, value_number, ho.value_eq hv]
                rfl

/-- An operand is a phrase of its own. -/
theorem Says.plain {text : String} {e : Expr} {o : Phrase .operand} (h : Says owner text e o) :
    Says owner text e (Phrase.plain o) where
  chars_eq := h.chars_eq
  value_eq := h.value_eq
  node_eq _ := rfl

theorem exists_atom {a : Atom} (h : ∀ x ∈ a.vars, Known names owner x.id) :
    ∃ p : Phrase .whole, Says owner (renderExpr names (.atom a)) (.atom a) p := by
  rw [renderExpr_atom]
  cases a with
  | literal l =>
      obtain ⟨p, hchars, hnode, hp⟩ := exists_literal (h (.bool l.var) (by simp [Atom.vars]))
      exact ⟨p, hchars, fun hv => (hp (by rwa [Expr.evaluate, Atom.evaluate] at hv)).1, hnode⟩
  | _ =>
      obtain ⟨o, ho⟩ := exists_operand_atom h rfl
      exact ⟨.plain o, ho.plain⟩

theorem toList_binary (text symbol text' : String) :
    (text ++ " " ++ symbol ++ " " ++ text').toList =
      text.toList ++ ((' ' :: symbol.toList ++ [' ']) ++ text'.toList) := by
  simp

theorem toList_call {text : String} {f : Callee} (htext : text.toList = f.chars ++ ['('])
    (items : List String) :
    (text ++ arrayOf items ++ ")").toList =
      f.chars ++ '(' :: '[' :: (separatedByCommas (items.map String.toList) ++ ']' :: [')']) := by
  rw [String.toList_append, String.toList_append, htext, toList_arrayOf]
  simp

theorem says_pair {a b : Expr} {l r : Phrase .operand}
    (ha : Says owner (renderOperand names a) a l) (hb : Says owner (renderOperand names b) b r) :
    Says owner (renderExpr names (.sum [a, b])) (.sum [a, b]) (.binary .plus l r) where
  chars_eq := by
    rw [renderExpr_pair, Phrase.chars_binary, ha.chars_eq, hb.chars_eq, String.toList_append,
      String.toList_append, List.append_assoc]
    rfl
  value_eq {σ v} hv := by
    obtain ⟨vs, hvs, hadd⟩ := Expr.evaluateSum_iff.mp (by rwa [Expr.evaluate] at hv)
    cases hvs with
    | cons hx hvs =>
        cases hvs with
        | cons hy hvs =>
            cases hvs
            rw [Phrase.value_binary, ha.value_eq hx, hb.value_eq hy, eq_sum_of_addAll hadd]
            simp [Symbol.compute]
  node_eq _ := rfl

theorem says_sum {terms : List Expr} (hlength : terms.length ≠ 2) {ps : List (Phrase .whole)}
    (h : AllSay owner (renderExpr names) terms ps) :
    Says owner (renderExpr names (.sum terms)) (.sum terms) (.call .sum ps) where
  chars_eq := by
    rw [renderExpr_sum hlength, toList_call (f := .sum) rfl, Phrase.chars_call, chars_of_allSay h]
  value_eq {σ v} hv := by
    obtain ⟨vs, hvs, hadd⟩ := Expr.evaluateSum_iff.mp (by rwa [Expr.evaluate] at hv)
    rw [Phrase.value_call, Callee.compute, values_of_allSay h hvs, allOf_map_some,
      eq_sum_of_addAll hadd]
    simp
  node_eq _ := rfl

theorem says_binary {op : BinaryOp} {a b : Expr} {l r : Phrase .operand}
    (ha : Says owner (renderOperand names a) a l) (hb : Says owner (renderOperand names b) b r) :
    Says owner (renderExpr names (.binary op a b)) (.binary op a b)
      (.binary (.operation op) l r) where
  chars_eq := by
    rw [renderExpr_binary, Phrase.chars_binary, ha.chars_eq, hb.chars_eq, toList_binary]
    rfl
  value_eq {σ v} hv := by
    obtain ⟨x, y, hx, hy, happly⟩ := Expr.evaluate_binary_iff.mp hv
    rw [Phrase.value_binary, ha.value_eq hx, hb.value_eq hy]
    exact happly
  node_eq _ := rfl

theorem says_abs {a : Expr} {p : Phrase .whole} (ha : Says owner (renderExpr names a) a p) :
    Says owner (renderExpr names (.unary .abs a)) (.unary .abs a) (.magnitude p) where
  chars_eq := by
    rw [renderExpr_abs, Phrase.chars_magnitude, ha.chars_eq]
    simp
  value_eq {σ v} hv := by
    obtain ⟨x, hx, happly⟩ := Expr.evaluate_unary_iff.mp hv
    rw [Phrase.value_magnitude, ha.value_eq hx, (Word.fit?_eq_some_iff.mp happly).2]
    rfl
  node_eq _ := rfl

theorem says_neg {a : Expr} {o : Phrase .operand} (ha : Says owner (renderOperand names a) a o) :
    Says owner (renderExpr names (.unary .neg a)) (.unary .neg a) (.plain (.minus o)) where
  chars_eq := by
    rw [renderExpr_neg, Phrase.chars_plain, Phrase.chars_minus, ha.chars_eq]
    simp
  value_eq {σ v} hv := by
    obtain ⟨x, hx, happly⟩ := Expr.evaluate_unary_iff.mp hv
    rw [Phrase.value_plain, Phrase.value_minus, ha.value_eq hx,
      (Word.fit?_eq_some_iff.mp happly).2]
    rfl
  node_eq _ := rfl

theorem toList_elementText (isBool : Bool) (array : List String) (index : String) :
    (elementText isBool array index).toList =
      Phrase.lookupStart ++ ((if isBool then "bool" else "int").toList ++ (Phrase.lookupArray
        ++ (signedNumeral ((array.length : Int) - 1) ++ ',' :: '[' ::
          (separatedByCommas (array.map String.toList) ++ ']' ::
            (Phrase.lookupIndex ++ (index.toList ++ [']'])))))) := by
  unfold elementText
  simp only [String.toList_append, toList_arrayOf, toList_toString_int, List.append_assoc,
    List.cons_append, List.nil_append]
  rfl

theorem says_element {array : List Expr} {index : Expr} {ps : List (Phrase .whole)}
    {p : Phrase .whole} (harray : AllSay owner (renderExpr names) array ps)
    (hindex : Says owner (renderExpr names index) index p) :
    Says owner (renderExpr names (.element array index)) (.element array index)
      (.lookup (array.all Expr.isBool) ps p) where
  chars_eq := by
    rw [renderExpr_element, toList_elementText, Phrase.chars_lookup, chars_of_allSay harray,
      hindex.chars_eq, ← harray.length_eq, List.length_map]
  value_eq {σ v} hv := by
    obtain ⟨i, e, hi, he, hv⟩ := Expr.evaluate_element_iff.mp hv
    obtain ⟨hlt, rfl⟩ := List.getElem?_eq_some_iff.mp he
    have hlt' : i < ps.length := harray.length_eq ▸ hlt
    have hitem : Says owner (renderExpr names array[i]) array[i] ps[i] := harray.get hlt hlt'
    have hpos : ¬ (i : Int) < 0 := by omega
    rw [Phrase.value_lookup, hindex.value_eq hi, Option.bind_some, if_neg hpos, Int.toNat_natCast,
      List.getElem?_map, List.getElem?_eq_getElem hlt', Option.map_some, Option.join_some,
      hitem.value_eq hv]
  node_eq _ := rfl

theorem says_weightedSum {weights : List Int} {terms : List Expr} {ps : List (Phrase .whole)}
    (hchars : ps.map Phrase.chars = (renderProducts names weights terms).map String.toList)
    (hvalues : ∀ {σ vs}, Expr.Values σ (terms.take weights.length) vs →
      ps.map (Phrase.value (lexicon owner σ)) = (List.zipWith (· * ·) weights vs).map some) :
    Says owner (renderExpr names (.weightedSum weights terms)) (.weightedSum weights terms)
      (.call .sum ps) where
  chars_eq := by
    rw [renderExpr_weightedSum, toList_call (f := .sum) rfl, Phrase.chars_call, hchars]
  value_eq {σ v} hv := by
    obtain ⟨vs, hvs, -, hadd⟩ := Expr.evaluateWeighted_iff.mp (by rwa [Expr.evaluate] at hv)
    rw [Phrase.value_call, Callee.compute, hvalues hvs, allOf_map_some, eq_sum_of_addAll hadd]
    simp
  node_eq _ := rfl

/-- The text of an expression is a phrase that means its value. -/
theorem exists_phrase {e : Expr} (h : ∀ x ∈ writtenIn e, Known names owner x.id) :
    ∃ p : Phrase .whole, Says owner (renderExpr names e) e p := by
  induction e using Expr.induction with
  | atom a =>
      rw [writtenIn] at h
      exact exists_atom h
  | sum terms ih =>
      have hterms : ∀ e ∈ terms, ∀ x ∈ writtenIn e, Known names owner x.id := fun e he x hx =>
        h x (by rw [writtenIn]; exact mem_writtenInAll.mpr ⟨e, he, hx⟩)
      by_cases hlength : terms.length = 2
      · obtain ⟨a, b, rfl⟩ := List.length_eq_two.mp hlength
        have ha : a ∈ [a, b] := by simp
        have hb : b ∈ [a, b] := by simp
        obtain ⟨l, hl⟩ := exists_operand (hterms a ha) (ih a ha (hterms a ha))
        obtain ⟨r, hr⟩ := exists_operand (hterms b hb) (ih b hb (hterms b hb))
        exact ⟨_, says_pair hl hr⟩
      · obtain ⟨ps, hps⟩ := exists_forall₂ fun e he => ih e he (hterms e he)
        exact ⟨_, says_sum hlength hps⟩
  | weightedSum weights terms ih =>
      -- Of the terms without a weight nothing is known, and nothing is needed.
      have hterms : ∀ e ∈ terms.take weights.length, ∀ x ∈ writtenIn e, Known names owner x.id :=
        fun e he x hx => h x (by
          rw [writtenIn, writtenInProducts_eq]
          exact mem_writtenInAll.mpr ⟨e, he, hx⟩)
      obtain ⟨ps, hchars, hvalues⟩ := exists_products fun e he =>
        exists_operand (hterms e he) (ih e (List.mem_of_mem_take he) (hterms e he))
      exact ⟨_, says_weightedSum hchars hvalues⟩
  | binary op a b iha ihb =>
      rw [writtenIn] at h
      obtain ⟨ha, hb⟩ := List.forall_mem_append.mp h
      obtain ⟨l, hl⟩ := exists_operand ha (iha ha)
      obtain ⟨r, hr⟩ := exists_operand hb (ihb hb)
      exact ⟨_, says_binary hl hr⟩
  | unary op a ih =>
      rw [writtenIn] at h
      cases op with
      | abs =>
          obtain ⟨p, hp⟩ := ih h
          exact ⟨_, says_abs hp⟩
      | neg =>
          obtain ⟨o, ho⟩ := exists_operand h (ih h)
          exact ⟨_, says_neg ho⟩
  | element array index iharray ihindex =>
      rw [writtenIn] at h
      obtain ⟨harray, hindex⟩ := List.forall_mem_append.mp h
      obtain ⟨ps, hps⟩ := exists_forall₂ fun e he => iharray e he fun x hx =>
        harray x (mem_writtenInAll.mpr ⟨e, he, hx⟩)
      obtain ⟨p, hp⟩ := ihindex hindex
      exact ⟨_, says_element hps hp⟩

/-! ## Constraints over many expressions -/

section Globals

variable {es : List Expr} {ps : List (Phrase .whole)} {g : Global}

/-- A successor that is numbered from 1. -/
def shifted (o : Phrase .operand) : Phrase .whole := .binary .shift o (.word (numeralWord 1))

theorem chars_shifted (o : Phrase .operand) : (shifted o).chars = o.chars ++ "+1".toList := rfl

theorem node_shifted (ρ : Lexicon) (o : Phrase .operand) : (shifted o).node ρ = o.value ρ := rfl

theorem value_shifted (o : Phrase .operand) :
    (shifted o).value (lexicon owner σ) = (o.value (lexicon owner σ)).map (· + 1) := by
  have hone : (Phrase.word (numeralWord 1)).value (lexicon owner σ) = some 1 := lexicon_numeral 1
  rw [shifted, Phrase.value_binary, hone]
  cases o.value (lexicon owner σ) <;> rfl

/-- The phrases of the successors in a circuit mean the same nodes, shifted or not. -/
theorem exists_successors (h : ∀ e ∈ es, ∀ x ∈ writtenIn e, Known names owner x.id) :
    ∃ ps : List (Phrase .whole),
      ps.map Phrase.chars = (renderSuccessors names es).map String.toList ∧
        ∀ {σ vs}, Expr.Values σ es vs → ps.map (Phrase.node (lexicon owner σ)) = vs.map some ∧
          ps.map (Phrase.value (lexicon owner σ)) =
            (if es.any startsAtZero then vs.map (· + 1) else vs).map some := by
  rw [renderSuccessors]
  split
  · obtain ⟨os, hos⟩ : ∃ os : List (Phrase .operand), AllSay owner (renderOperand names) es os :=
      exists_forall₂ fun e he => exists_operand (h e he) (exists_phrase (h e he))
    refine ⟨os.map shifted, ?_, fun {σ vs} hvs => ?_⟩
    · have hchars := congrArg (List.map (· ++ "+1".toList)) (chars_of_allSay hos)
      simpa [Function.comp_def, chars_shifted] using hchars
    · have hvalues := values_of_allSay hos hvs
      refine ⟨by simpa [Function.comp_def, node_shifted] using hvalues, ?_⟩
      have hshifted := congrArg (List.map (Option.map (· + 1))) hvalues
      simpa [Function.comp_def, value_shifted] using hshifted
  · obtain ⟨ps, hps⟩ := exists_forall₂ fun e he => exists_phrase (h e he)
    refine ⟨ps, by rw [renderExprs_eq, chars_of_allSay hps], fun {σ vs} hvs => ?_⟩
    rw [nodes_of_allSay hps, values_of_allSay hps hvs]
    exact ⟨rfl, rfl⟩

/-- The phrases of the literals whose parity matters. -/
theorem exists_literals {literals : List Literal}
    (h : ∀ l ∈ literals, Known names owner l.var.id) :
    ∃ ps : List (Phrase .whole),
      ps.map Phrase.chars = (literals.map (renderLiteral names)).map String.toList ∧
        ∀ {σ vs}, Expr.Values σ (literals.map .ofLiteral) vs →
          ps.map (Phrase.truth (lexicon owner σ)) = (vs.map (· != 0)).map some := by
  obtain ⟨ps, hps⟩ := exists_forall₂ fun l hl => exists_literal (h l hl)
  refine ⟨ps, ?_, fun {σ vs} hvs => ?_⟩
  · rw [List.map_map]
    exact map_eq_map_of_forall₂ (fun hp => hp.1) hps
  · rw [List.map_map]
    refine map_eq_map_of_common (fun hp hv => ?_) hps (List.forall₂_map_left_iff.mp hvs)
    rw [Expr.ofLiteral, Expr.evaluate, Atom.evaluate] at hv
    exact (hp.2.2 hv).2

theorem toList_rows (rows : List (List Int)) :
    (String.join (rows.map fun row => joined (row.map toString) ++ " |")).toList =
      rows.flatMap rowChars := by
  have hrow : ∀ row : List Int, (joined (row.map toString) ++ " |").toList = rowChars row := by
    intro row
    have hnumbers : row.map (String.toList ∘ toString) = row.map signedNumeral :=
      List.map_congr_left fun v _ => toList_toString_int v
    rw [joined, String.toList_append, String.toList_intercalate, List.map_map, hnumbers]
    rfl
  rw [String.toList_join, List.flatMap_map]
  simp only [hrow]

/-- A function whose arguments are written as they are. -/
theorem states_call {text : String} {f : Callee} (htext : text.toList = f.chars ++ ['('])
    {items : List String} (hrender : renderGlobal names g = text ++ arrayOf items ++ ")")
    (hchars : ps.map Phrase.chars = items.map String.toList)
    (htruth : ∀ {σ vs}, Expr.Values σ g.args vs →
      (Phrase.call f ps).truth (lexicon owner σ) = some (g.apply vs)) :
    States owner (renderGlobal names g) (.global g) (.call f ps) where
  chars_eq := by rw [hrender, toList_call htext, Phrase.chars_call, hchars]
  truth_eq {σ b} hb := by
    obtain ⟨vs, hvs, rfl⟩ := Constraint.evaluate_global_iff.mp hb
    exact htruth hvs

theorem states_table_nil {columns : List Expr} :
    States owner (renderGlobal names (.table columns [])) (.global (.table columns []))
      (.plain (.word (boolWord false))) where
  chars_eq := rfl
  truth_eq {σ b} hb := by
    obtain ⟨vs, -, rfl⟩ := Constraint.evaluate_global_iff.mp hb
    rw [Phrase.truth_plain, Phrase.truth_word, lexicon_bool]
    rfl

theorem states_table_cons {columns : List Expr} {row : List Int} {rows : List (List Int)}
    (hps : AllSay owner (renderExpr names) columns ps) :
    States owner (renderGlobal names (.table columns (row :: rows)))
      (.global (.table columns (row :: rows))) (.table ps (row :: rows)) where
  chars_eq := by
    rw [Phrase.chars_table, chars_of_allSay hps, renderGlobal, String.toList_append,
      String.toList_append, String.toList_append, String.toList_append, toList_rows,
      renderExprs_eq, toList_arrayOf]
    · simp
    · exact List.cons_ne_nil row rows
  truth_eq {σ b} hb := by
    obtain ⟨vs, hvs, rfl⟩ := Constraint.evaluate_global_iff.mp hb
    rw [Phrase.truth_table, values_of_allSay hps hvs, allOf_map_some]
    rfl

/-- The text of a constraint over many expressions is a phrase that means its truth value. -/
theorem exists_phrase_global (h : ∀ x ∈ writtenInGlobal g, Known names owner x.id) :
    ∃ p : Phrase .whole, States owner (renderGlobal names g) (.global g) p := by
  have hargs : ∀ es, writtenInGlobal g = writtenInAll es →
      ∀ e ∈ es, ∀ x ∈ writtenIn e, Known names owner x.id := fun es hes e he x hx =>
    h x (hes ▸ mem_writtenInAll.mpr ⟨e, he, hx⟩)
  have hphrases : ∀ es, writtenInGlobal g = writtenInAll es →
      ∃ ps, AllSay owner (renderExpr names) es ps :=
    fun es hes => exists_forall₂ fun e he => exists_phrase (hargs es hes e he)
  cases g with
  | allDifferent args =>
      obtain ⟨ps, hps⟩ := hphrases args rfl
      refine ⟨.call .allDifferent ps, states_call rfl rfl ?_ fun {σ vs} hvs => ?_⟩
      · rw [renderExprs_eq, chars_of_allSay hps]
      · rw [Phrase.truth_call, Callee.judge, values_of_allSay hps hvs, allOf_map_some]
        rfl
  | allEqual args =>
      obtain ⟨ps, hps⟩ := hphrases args rfl
      refine ⟨.call .allEqual ps, states_call rfl rfl ?_ fun {σ vs} hvs => ?_⟩
      · rw [renderExprs_eq, chars_of_allSay hps]
      · rw [Phrase.truth_call, Callee.judge, values_of_allSay hps hvs, allOf_map_some]
        rfl
  | circuit successors =>
      obtain ⟨ps, hchars, hnodes⟩ := exists_successors (hargs successors rfl)
      refine ⟨.call .circuit ps, states_call rfl rfl hchars fun {σ vs} hvs => ?_⟩
      rw [Phrase.truth_call, Callee.judge, (hnodes hvs).1, allOf_map_some]
      rfl
  | subcircuit successors =>
      obtain ⟨ps, hchars, hnodes⟩ := exists_successors (hargs successors rfl)
      refine ⟨.call .subcircuit ps, states_call rfl rfl hchars fun {σ vs} hvs => ?_⟩
      rw [Phrase.truth_call, Callee.judge, (hnodes hvs).1, allOf_map_some]
      rfl
  | table columns rows =>
      cases rows with
      | nil => exact ⟨_, states_table_nil⟩
      | cons row rows =>
          obtain ⟨ps, hps⟩ := hphrases columns rfl
          exact ⟨_, states_table_cons hps⟩
  | parity literals =>
      obtain ⟨ps, hchars, htruths⟩ := exists_literals fun l hl => h (.bool l.var) <|
        mem_writtenInAll.mpr ⟨.ofLiteral l, List.mem_map_of_mem hl, by
          simp [writtenIn, Expr.ofLiteral, Atom.vars]⟩
      refine ⟨.call (.connective .xor) ps, states_call rfl rfl hchars fun {σ vs} hvs => ?_⟩
      rw [Phrase.truth_call, Callee.judge, htruths hvs, allOf_map_some]
      rfl

end Globals

/-! ## Constraints -/

/-- What is compound is put into parentheses. -/
theorem exists_operand_constraint {c : Constraint}
    (h : ∀ x ∈ writtenInConstraint c, Known names owner x.id)
    (hc : ∃ p : Phrase .whole, States owner (renderConstraint names c) c p) :
    ∃ o : Phrase .operand, States owner (renderConstraintOperand names c) c o := by
  rw [renderConstraintOperand_eq]
  cases hcompound : isCompoundConstraint c with
  | true =>
      obtain ⟨p, hp⟩ := hc
      refine ⟨.group p, ?_, hp.truth_eq⟩
      rw [Phrase.chars_group, hp.chars_eq, toList_parenthesised_true]
  | false =>
      cases c with
      | literal l =>
          have hl : Known names owner l.var.id := h (.bool l.var) (by simp [writtenInConstraint])
          refine ⟨.word hl.isName.word, ?_, fun {σ b} hb => ?_⟩
          · rw [renderConstraint, renderLiteral, show l.negated = false from hcompound]
            rfl
          · obtain ⟨v, hv, rfl⟩ := Constraint.evaluate_literal_iff.mp hb
            rw [Phrase.truth_word, value_name hl, evaluate_of_not_negated hcompound hv,
              Option.map_some]
      | constant value =>
          refine ⟨.word (boolWord value), by rw [renderConstraint]; rfl, fun {σ b} hb => ?_⟩
          rw [Constraint.evaluate] at hb
          rw [Phrase.truth_word, lexicon_bool, ← Except.ok.inj hb]
          cases value <;> rfl
      | _ => cases hcompound

section Lists

variable {cs : List Constraint} {ps : List (Phrase .whole)}

/-- The phrases are the texts of the constraints, and mean their truth values. -/
abbrev AllState (owner : List Char → Option VarId) (names : Names) :
    List Constraint → List (Phrase .whole) → Prop :=
  List.Forall₂ fun c p => States owner (renderConstraint names c) c p

theorem chars_of_allState (h : AllState owner names cs ps) :
    ps.map Phrase.chars = (cs.map (renderConstraint names)).map String.toList := by
  rw [List.map_map]
  exact map_eq_map_of_forall₂ (fun hp => hp.chars_eq) h

theorem truths_of_allState (h : AllState owner names cs ps) {bs : List Bool}
    (hbs : Constraint.TruthValues σ cs bs) :
    ps.map (Phrase.truth (lexicon owner σ)) = bs.map some :=
  map_eq_map_of_common (fun hp hb => hp.truth_eq hb) h hbs

end Lists

theorem exists_phrase_literal {l : Literal} (h : Known names owner l.var.id) :
    ∃ p : Phrase .whole, States owner (renderConstraint names (.literal l)) (.literal l) p := by
  obtain ⟨p, hchars, -, hp⟩ := exists_literal h
  refine ⟨p, by rw [renderConstraint, hchars], fun {σ b} hb => ?_⟩
  obtain ⟨v, hv, rfl⟩ := Constraint.evaluate_literal_iff.mp hb
  exact (hp hv).2

theorem states_constant (value : Bool) :
    States owner (renderConstraint names (.constant value)) (.constant value)
      (Phrase.plain (.word (boolWord value))) where
  chars_eq := by
    rw [renderConstraint]
    rfl
  truth_eq {σ b} hb := by
    rw [Constraint.evaluate] at hb
    rw [Phrase.truth_plain, Phrase.truth_word, lexicon_bool, ← Except.ok.inj hb]
    cases value <;> rfl

theorem states_pair {kind : Connective} {a b : Constraint} {l r : Phrase .operand}
    (ha : States owner (renderConstraintOperand names a) a l)
    (hb : States owner (renderConstraintOperand names b) b r) :
    States owner (renderConstraint names (.connective kind [a, b])) (.connective kind [a, b])
      (Phrase.binary (.connective kind) l r) where
  chars_eq := by
    rw [renderConstraint_pair, Phrase.chars_binary, ha.chars_eq, hb.chars_eq, toList_binary]
    rfl
  truth_eq {σ v} hv := by
    obtain ⟨bs, hbs, rfl⟩ := Constraint.evaluate_connective_iff.mp hv
    cases hbs with
    | cons hx hbs =>
        cases hbs with
        | cons hy hbs =>
            cases hbs
            rw [Phrase.truth_binary, ha.truth_eq hx, hb.truth_eq hy]
            rfl

theorem states_connective {kind : Connective} {args : List Constraint} (hlength : args.length ≠ 2)
    {ps : List (Phrase .whole)} (h : AllState owner names args ps) :
    States owner (renderConstraint names (.connective kind args)) (.connective kind args)
      (Phrase.call (.connective kind) ps) where
  chars_eq := by
    have htext : (connectiveFunction kind ++ "(").toList =
        (Callee.connective kind).chars ++ ['('] := by
      rw [String.toList_append]
      rfl
    rw [renderConstraint_connective hlength, toList_call htext, Phrase.chars_call,
      chars_of_allState h]
  truth_eq {σ v} hv := by
    obtain ⟨bs, hbs, rfl⟩ := Constraint.evaluate_connective_iff.mp hv
    rw [Phrase.truth_call, Callee.judge, truths_of_allState h hbs, allOf_map_some]
    rfl

theorem states_implication {a c : Constraint} {l r : Phrase .operand}
    (ha : States owner (renderConstraintOperand names a) a l)
    (hc : States owner (renderConstraintOperand names c) c r) :
    States owner (renderConstraint names (.implication a c)) (.implication a c)
      (Phrase.binary .implies l r) where
  chars_eq := by
    rw [renderConstraint_implication, Phrase.chars_binary, ha.chars_eq, hc.chars_eq,
      String.toList_append, String.toList_append, List.append_assoc]
    rfl
  truth_eq {σ v} hv := by
    rw [Phrase.truth_binary]
    rcases Constraint.evaluate_implication_iff.mp hv with ⟨hx, hy⟩ | ⟨hx, rfl⟩
    · rw [ha.truth_eq hx, hc.truth_eq hy]
      rfl
    · rw [ha.truth_eq hx]
      rfl

theorem states_comparison {comparator : Comparator} {lhs rhs : Expr} {l r : Phrase .operand}
    (hl : Says owner (renderOperand names lhs) lhs l)
    (hr : Says owner (renderOperand names rhs) rhs r) :
    States owner (renderConstraint names (.comparison comparator lhs rhs))
      (.comparison comparator lhs rhs) (Phrase.binary (.comparison comparator) l r) where
  chars_eq := by
    rw [renderConstraint_comparison, Phrase.chars_binary, hl.chars_eq, hr.chars_eq, toList_binary]
    rfl
  truth_eq {σ v} hv := by
    obtain ⟨x, y, hx, hy, rfl⟩ := Constraint.evaluate_comparison_iff.mp hv
    rw [Phrase.truth_binary, hl.value_eq hx, hr.value_eq hy]
    rfl

/-- The text of a constraint is a phrase that means its truth value. -/
theorem exists_phrase_constraint {c : Constraint}
    (h : ∀ x ∈ writtenInConstraint c, Known names owner x.id) :
    ∃ p : Phrase .whole, States owner (renderConstraint names c) c p := by
  induction c using Constraint.induction with
  | literal l => exact exists_phrase_literal (h (.bool l.var) (by simp [writtenInConstraint]))
  | constant value => exact ⟨_, states_constant value⟩
  | connective kind args ih =>
      have hargs : ∀ c ∈ args, ∀ x ∈ writtenInConstraint c, Known names owner x.id :=
        fun c hc x hx => h x (by
          rw [writtenInConstraint]
          exact mem_writtenInConstraints.mpr ⟨c, hc, hx⟩)
      by_cases hlength : args.length = 2
      · obtain ⟨a, b, rfl⟩ := List.length_eq_two.mp hlength
        have ha : a ∈ [a, b] := by simp
        have hb : b ∈ [a, b] := by simp
        obtain ⟨l, hl⟩ := exists_operand_constraint (hargs a ha) (ih a ha (hargs a ha))
        obtain ⟨r, hr⟩ := exists_operand_constraint (hargs b hb) (ih b hb (hargs b hb))
        exact ⟨_, states_pair hl hr⟩
      · obtain ⟨ps, hps⟩ := exists_forall₂ fun c hc => ih c hc (hargs c hc)
        exact ⟨_, states_connective hlength hps⟩
  | implication a c iha ihc =>
      rw [writtenInConstraint] at h
      obtain ⟨ha, hc⟩ := List.forall_mem_append.mp h
      obtain ⟨l, hl⟩ := exists_operand_constraint ha (iha ha)
      obtain ⟨r, hr⟩ := exists_operand_constraint hc (ihc hc)
      exact ⟨_, states_implication hl hr⟩
  | comparison comparator lhs rhs =>
      rw [writtenInConstraint] at h
      obtain ⟨hlhs, hrhs⟩ := List.forall_mem_append.mp h
      obtain ⟨l, hl⟩ := exists_operand hlhs (exists_phrase hlhs)
      obtain ⟨r, hr⟩ := exists_operand hrhs (exists_phrase hrhs)
      exact ⟨_, states_comparison hl hr⟩
  | global g =>
      rw [writtenInConstraint] at h
      rw [renderConstraint_global]
      exact exists_phrase_global h

/-! ## Equal texts -/

/-- Expressions with the same text have the same value wherever both have one. -/
theorem value_eq_of_renderExpr_eq {e e' : Expr} (he : ∀ x ∈ writtenIn e, Known names owner x.id)
    (he' : ∀ x ∈ writtenIn e', Known names owner x.id)
    (htext : renderExpr names e = renderExpr names e') {v v' : Int} (hv : e.evaluate σ = .ok v)
    (hv' : e'.evaluate σ = .ok v') : v = v' := by
  obtain ⟨p, hp⟩ := exists_phrase he
  obtain ⟨p', hp'⟩ := exists_phrase he'
  obtain rfl : p = p' :=
    Phrase.chars_injective (hp.chars_eq.trans (htext ▸ hp'.chars_eq.symm))
  exact Option.some.inj ((hp.value_eq hv).symm.trans (hp'.value_eq hv'))

/-- Constraints with the same text have the same truth value wherever both have one. -/
theorem truth_eq_of_renderConstraint_eq {c c' : Constraint}
    (hc : ∀ x ∈ writtenInConstraint c, Known names owner x.id)
    (hc' : ∀ x ∈ writtenInConstraint c', Known names owner x.id)
    (htext : renderConstraint names c = renderConstraint names c') {b b' : Bool}
    (hb : c.evaluate σ = .ok b) (hb' : c'.evaluate σ = .ok b') : b = b' := by
  obtain ⟨p, hp⟩ := exists_phrase_constraint hc
  obtain ⟨p', hp'⟩ := exists_phrase_constraint hc'
  obtain rfl : p = p' :=
    Phrase.chars_injective (hp.chars_eq.trans (htext ▸ hp'.chars_eq.symm))
  exact Option.some.inj ((hp.truth_eq hb).symm.trans (hp'.truth_eq hb'))

end FiniteDomain.MiniZinc
