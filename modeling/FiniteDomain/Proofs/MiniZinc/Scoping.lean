import FiniteDomain.Proofs.Constraint.Preservation
import FiniteDomain.Proofs.MiniZinc.Texts

/-!
# What the words in a lookup refer to

A lookup declares its array on the spot, under a name that is always the same. Within the lookup
this name refers to the array, so a variable of that name cannot be referred to there. There is at
most one such variable: the first one that asks for the name.
-/

namespace FiniteDomain.MiniZinc

open Text

/-- The name under which a lookup declares its array. -/
def arrayName : String := "arr"

/-- The name is declared, and the item is looked up in what it declares. -/
theorem elementText_eq (isBool : Bool) (array : List String) (index : String) :
    elementText isBool array index =
      "\n    let \x7b array[int] of var " ++ (if isBool then "bool" else "int") ++ ": " ++ arrayName
        ++ "=array1d(0.." ++ toString ((array.length : Int) - 1) ++ "," ++ arrayOf array
        ++ ") \x7d in\n      " ++ arrayName ++ "[" ++ index ++ "]" := by
  have hstart : ": arr=array1d(0.." = ": " ++ arrayName ++ "=array1d(0.." := by decide +kernel
  have hend : ") \x7d in\n      arr[" = ") \x7d in\n      " ++ arrayName ++ "[" := by decide +kernel
  unfold elementText
  rw [hstart, hend]
  simp only [String.append_assoc]

/-! ## Words -/

namespace Phrase

mutual

/-- The words of a phrase that refer to something outside of it, where a lookup binds some. -/
def wordsBeyond (bound : List Char → Bool) : {shape : Shape} → Phrase shape → List (List Char)
  | _, word w => [w.chars]
  | _, minus o => wordsBeyond bound o
  | _, group p => wordsBeyond bound p
  | _, plain o => wordsBeyond bound o
  | _, binary _ l r => wordsBeyond bound l ++ wordsBeyond bound r
  | _, negation w => [w.chars]
  | _, call _ items => wordsBeyondAll bound items
  | _, magnitude p => wordsBeyond bound p
  | _, table columns _ => wordsBeyondAll bound columns
  | _, lookup _ items index =>
    (wordsBeyondAll bound items ++ wordsBeyond bound index).filter fun cs => !bound cs

/-- Such words of several phrases. -/
def wordsBeyondAll (bound : List Char → Bool) : List (Phrase .whole) → List (List Char)
  | [] => []
  | p :: ps => wordsBeyond bound p ++ wordsBeyondAll bound ps

end

/-- All words of a phrase. -/
def words {shape : Shape} (p : Phrase shape) : List (List Char) := p.wordsBeyond fun _ => false

/-- The words that do not refer to the array of a lookup. -/
def free {shape : Shape} (p : Phrase shape) : List (List Char) :=
  p.wordsBeyond (· == arrayName.toList)

theorem wordsBeyondAll_eq (bound : List Char → Bool) (ps : List (Phrase .whole)) :
    wordsBeyondAll bound ps = ps.flatMap (wordsBeyond bound) := by
  induction ps with
  | nil => rfl
  | cons p ps ih => exact congrArg (p.wordsBeyond bound ++ ·) ih

theorem wordsBeyond_call (bound : List Char → Bool) (f : Callee) (items : List (Phrase .whole)) :
    (call f items).wordsBeyond bound = items.flatMap (wordsBeyond bound) :=
  wordsBeyondAll_eq bound items

theorem wordsBeyond_table (bound : List Char → Bool) (columns : List (Phrase .whole))
    (rows : List (List Int)) :
    (table columns rows).wordsBeyond bound = columns.flatMap (wordsBeyond bound) :=
  wordsBeyondAll_eq bound columns

theorem wordsBeyond_lookup (bound : List Char → Bool) (isBool : Bool)
    (items : List (Phrase .whole)) (index : Phrase .whole) :
    (lookup isBool items index).wordsBeyond bound =
      (items.flatMap (wordsBeyond bound) ++ index.wordsBeyond bound).filter fun cs =>
        !bound cs := by
  rw [← wordsBeyondAll_eq]
  rfl

theorem words_call (f : Callee) (items : List (Phrase .whole)) :
    (call f items).words = items.flatMap words := wordsBeyond_call _ f items

theorem words_table (columns : List (Phrase .whole)) (rows : List (List Int)) :
    (table columns rows).words = columns.flatMap words := wordsBeyond_table _ columns rows

theorem words_lookup (isBool : Bool) (items : List (Phrase .whole)) (index : Phrase .whole) :
    (lookup isBool items index).words = items.flatMap words ++ index.words := by
  rw [words, wordsBeyond_lookup]
  exact List.filter_true _

/-- Where no word is bound, all refer to something outside. -/
theorem wordsBeyond_eq_words {bound : List Char → Bool} {shape : Shape} (p : Phrase shape)
    (h : ∀ cs ∈ p.words, bound cs = false) : p.wordsBeyond bound = p.words := by
  have hall : ∀ {ps : List (Phrase .whole)},
      (∀ p ∈ ps, (∀ cs ∈ p.words, bound cs = false) → p.wordsBeyond bound = p.words) →
        (∀ cs ∈ ps.flatMap words, bound cs = false) →
          ps.flatMap (wordsBeyond bound) = ps.flatMap words := fun ih hps =>
    List.flatMap_congr fun p hp => ih p hp fun cs hcs =>
      hps cs (List.mem_flatMap.mpr ⟨p, hp, hcs⟩)
  induction p using Phrase.induction with
  | word w => rfl
  | minus o ho => exact ho h
  | group p hp => exact hp h
  | plain o ho => exact ho h
  | binary symbol l r hl hr =>
      obtain ⟨hleft, hright⟩ := List.forall_mem_append.mp h
      exact congrArg₂ (· ++ ·) (hl hleft) (hr hright)
  | negation w => rfl
  | call f items hitems =>
      rw [words_call] at h ⊢
      rw [wordsBeyond_call, hall hitems h]
  | magnitude p hp => exact hp h
  | table columns rows hcolumns =>
      rw [words_table] at h ⊢
      rw [wordsBeyond_table, hall hcolumns h]
  | lookup isBool items index hitems hindex =>
      rw [words_lookup] at h ⊢
      obtain ⟨hitems', hindex'⟩ := List.forall_mem_append.mp h
      rw [wordsBeyond_lookup, hall hitems hitems', hindex hindex', List.filter_eq_self]
      exact fun cs hcs => by simp [h cs hcs]

/-- Within a lookup the name of its array does not refer to anything else. -/
theorem free_lookup_eq_iff {isBool : Bool} {items : List (Phrase .whole)} {index : Phrase .whole} :
    (lookup isBool items index).free = (lookup isBool items index).words ↔
      arrayName.toList ∉ (lookup isBool items index).words := by
  constructor
  · intro h hmem
    rw [← h, free, wordsBeyond_lookup] at hmem
    simpa using (List.mem_filter.mp hmem).2
  · intro h
    refine wordsBeyond_eq_words _ fun cs hcs => ?_
    rw [beq_eq_false_iff_ne]
    rintro rfl
    exact h hcs

end Phrase

/-! ## The words of a text -/

variable {names : Names} {owner : List Char → Option VarId} {shape : Shape}

/-- Those words of the phrase that are names are the names of the variables. -/
def Mentions (names : Names) (xs : List Variable) (words : List (List Char)) : Prop :=
  ∀ cs, IsName cs → (cs ∈ words ↔ ∃ x ∈ xs, (names x.id).toList = cs)

namespace Mentions

theorem nil : Mentions names [] [] := fun _ _ => by simp

theorem append {xs ys : List Variable} {words words' : List (List Char)}
    (h : Mentions names xs words) (h' : Mentions names ys words') :
    Mentions names (xs ++ ys) (words ++ words') := by
  intro cs hcs
  simp only [List.mem_append, h cs hcs, h' cs hcs, or_and_right, exists_or]

theorem word {x : Variable} {cs : List Char} (h : (names x.id).toList = cs) :
    Mentions names [x] [cs] := by
  intro cs' _
  simp [h, eq_comm]

/-- Numerals and truth values are no names. -/
theorem of_not_isName {cs : List Char} (h : ¬ IsName cs) : Mentions names [] [cs] := by
  rintro cs' hcs
  simp only [List.mem_singleton, List.not_mem_nil, false_and, exists_false, iff_false]
  rintro rfl
  exact h hcs

end Mentions

theorem not_isName_numeral (n : Nat) : ¬ IsName (numeral n) := by
  intro h
  obtain ⟨c, rest, hcons, hstart, -⟩ := h.1.exists_cons
  have hdigit := isDigit_of_mem_numeral (hcons ▸ List.mem_cons_self : c ∈ numeral n)
  exact Bool.false_ne_true ((isDigit_eq_false_of_isIdentStart hstart).symm.trans hdigit)

theorem not_isName_boolWord (b : Bool) : ¬ IsName (boolWord b).chars :=
  fun h => h.2 (by cases b <;> decide)

theorem mentions_number (v : Int) : Mentions names [] (number v).words := by
  rw [number]
  split <;> exact .of_not_isName (not_isName_numeral _)

/-- The words of the phrase are those of the text. -/
theorem mentions_of_chars_eq {xs : List Variable} {p q : Phrase .whole} (hq : q.chars = p.chars)
    (h : Mentions names xs q.words) : Mentions names xs p.words :=
  Phrase.chars_injective hq ▸ h

theorem mentions_atom {a : Atom} (h : ∀ x ∈ a.vars, Known names owner x.id) {p : Phrase .whole}
    (hp : p.chars = (renderAtom names a).toList) : Mentions names a.vars p.words := by
  cases a with
  | int x =>
      have hx := h (.int x) (by simp [Atom.vars])
      exact mentions_of_chars_eq (q := .plain (.word hx.isName.word)) hp.symm (.word rfl)
  | literal l =>
      have hl := h (.bool l.var) (by simp [Atom.vars])
      cases hneg : l.negated with
      | false =>
          rw [renderAtom, renderLiteral, hneg] at hp
          exact mentions_of_chars_eq (q := .plain (.word hl.isName.word)) hp.symm (.word rfl)
      | true =>
          rw [renderAtom, renderLiteral, hneg, if_pos rfl, String.toList_append] at hp
          exact mentions_of_chars_eq (q := .negation hl.isName.word) hp.symm (.word rfl)
  | constant value =>
      refine mentions_of_chars_eq (q := .plain (number value)) ?_ (mentions_number value)
      rw [Phrase.chars_plain, chars_number, hp, renderAtom, toList_toString_int]
  | bool value =>
      exact mentions_of_chars_eq (q := .plain (.word (boolWord value))) hp.symm
        (.of_not_isName (not_isName_boolWord value))

section Parts

variable {e : Expr} {es : List Expr}

/-- The words of an operand, in parentheses or not. -/
theorem mentions_operand (h : ∀ x ∈ writtenIn e, Known names owner x.id)
    (he : ∀ p : Phrase .whole, p.chars = (renderExpr names e).toList →
      Mentions names (writtenIn e) p.words)
    {o : Phrase .operand} (ho : o.chars = (renderOperand names e).toList) :
    Mentions names (writtenIn e) o.words := by
  rw [renderOperand_eq] at ho
  cases hcompound : isCompound e with
  | false => exact he (.plain o) (by rw [Phrase.chars_plain, ho, hcompound]; rfl)
  | true =>
      obtain ⟨p, hp⟩ := exists_phrase h
      refine mentions_of_chars_eq (p := .plain o) (q := .plain (.group p)) ?_ (he p hp.chars_eq)
      rw [Phrase.chars_plain, Phrase.chars_plain, Phrase.chars_group, hp.chars_eq, ho, hcompound,
        toList_parenthesised_true]

/-- The words of several texts. -/
theorem mentions_all {ps : List (Phrase .whole)}
    (hes : ∀ e ∈ es, ∀ p : Phrase .whole, p.chars = (renderExpr names e).toList →
      Mentions names (writtenIn e) p.words)
    (hps : ps.map Phrase.chars = (es.map (renderExpr names)).map String.toList) :
    Mentions names (writtenInAll es) (ps.flatMap Phrase.words) := by
  induction es generalizing ps with
  | nil =>
      obtain rfl : ps = [] := by simpa using hps
      exact .nil
  | cons e es ih =>
      obtain ⟨p, ps, rfl, hp, hps⟩ := List.map_eq_cons_iff.mp hps
      obtain ⟨he, hes⟩ := List.forall_mem_cons.mp hes
      exact (he p hp).append (ih hes hps)

/-- The words of products: weights are no names. -/
theorem mentions_products {weights : List Int} {ps : List (Phrase .whole)}
    (hes : ∀ e ∈ es.take weights.length, (∀ x ∈ writtenIn e, Known names owner x.id) ∧
      ∀ p : Phrase .whole, p.chars = (renderExpr names e).toList →
        Mentions names (writtenIn e) p.words)
    (hps : ps.map Phrase.chars = (renderProducts names weights es).map String.toList) :
    Mentions names (writtenInProducts weights es) (ps.flatMap Phrase.words) := by
  induction es generalizing weights ps with
  | nil =>
      rw [renderProducts] at hps
      obtain rfl : ps = [] := by simpa using hps
      exact .nil
  | cons e es ih =>
      cases weights with
      | nil =>
          rw [renderProducts] at hps
          obtain rfl : ps = [] := by simpa using hps
          exact .nil
      | cons w ws =>
          rw [renderProducts] at hps
          obtain ⟨p, ps, rfl, hp, hps⟩ := List.map_eq_cons_iff.mp hps
          obtain ⟨⟨hknown, he⟩, hes⟩ := List.forall_mem_cons.mp hes
          obtain ⟨o, ho⟩ := exists_operand hknown (exists_phrase hknown)
          have hproduct : (Phrase.binary .times (number w) o).chars = p.chars := by
            rw [Phrase.chars_binary, chars_number, ho.chars_eq, hp, String.toList_append,
              String.toList_append, toList_toString_int, List.append_assoc]
            rfl
          have hwords := (mentions_number w).append (mentions_operand hknown he ho.chars_eq)
          exact (mentions_of_chars_eq hproduct hwords).append (ih hes hps)

end Parts

/-- A sum of two terms is written with a sign between them. -/
theorem mentions_sum {terms : List Expr}
    (hterms : ∀ e ∈ terms, ∀ x ∈ writtenIn e, Known names owner x.id)
    (hall : ∀ e ∈ terms, ∀ p : Phrase .whole, p.chars = (renderExpr names e).toList →
      Mentions names (writtenIn e) p.words)
    {p : Phrase .whole} (hp : p.chars = (renderExpr names (.sum terms)).toList) :
    Mentions names (writtenInAll terms) p.words := by
  by_cases hlength : terms.length = 2
  · obtain ⟨a, b, rfl⟩ := List.length_eq_two.mp hlength
    have ha : a ∈ [a, b] := by simp
    have hb : b ∈ [a, b] := by simp
    obtain ⟨l, hl⟩ := exists_operand (hterms a ha) (exists_phrase (hterms a ha))
    obtain ⟨r, hr⟩ := exists_operand (hterms b hb) (exists_phrase (hterms b hb))
    have hwords := (mentions_operand (hterms a ha) (hall a ha) hl.chars_eq).append
      (mentions_operand (hterms b hb) (hall b hb) hr.chars_eq)
    rw [writtenInAll, writtenInAll, writtenInAll, List.append_nil]
    exact mentions_of_chars_eq ((says_pair hl hr).chars_eq.trans hp.symm) hwords
  · obtain ⟨ps, hps⟩ := exists_forall₂ fun e he => exists_phrase (hterms e he)
    refine mentions_of_chars_eq ((says_sum hlength hps).chars_eq.trans hp.symm) ?_
    rw [Phrase.words_call]
    exact mentions_all hall (chars_of_allSay hps)

/-- The names in the text of an expression are those of the variables that are written in it. -/
theorem mentions_expr {e : Expr} (h : ∀ x ∈ writtenIn e, Known names owner x.id)
    {p : Phrase .whole} (hp : p.chars = (renderExpr names e).toList) :
    Mentions names (writtenIn e) p.words := by
  induction e using Expr.induction generalizing p with
  | atom a =>
      rw [writtenIn] at h ⊢
      rw [renderExpr_atom] at hp
      exact mentions_atom h hp
  | sum terms ih =>
      have hterms : ∀ e ∈ terms, ∀ x ∈ writtenIn e, Known names owner x.id := fun e he x hx =>
        h x (by rw [writtenIn]; exact mem_writtenInAll.mpr ⟨e, he, hx⟩)
      have hall : ∀ e ∈ terms, ∀ p : Phrase .whole, p.chars = (renderExpr names e).toList →
          Mentions names (writtenIn e) p.words := fun e he _ hp => ih e he (hterms e he) hp
      rw [writtenIn]
      exact mentions_sum hterms hall hp
  | weightedSum weights terms ih =>
      have hterms : ∀ e ∈ terms.take weights.length, ∀ x ∈ writtenIn e, Known names owner x.id :=
        fun e he x hx => h x (by
          rw [writtenIn, writtenInProducts_eq]
          exact mem_writtenInAll.mpr ⟨e, he, hx⟩)
      obtain ⟨ps, hchars, hvalues⟩ := exists_products fun e he =>
        exists_operand (hterms e he) (exists_phrase (hterms e he))
      refine mentions_of_chars_eq ((says_weightedSum hchars hvalues).chars_eq.trans hp.symm) ?_
      rw [Phrase.words_call, writtenIn]
      exact mentions_products (fun e he => ⟨hterms e he, fun _ hp =>
        ih e (List.mem_of_mem_take he) (hterms e he) hp⟩) hchars
  | binary op a b iha ihb =>
      rw [writtenIn] at h ⊢
      obtain ⟨ha, hb⟩ := List.forall_mem_append.mp h
      obtain ⟨l, hl⟩ := exists_operand ha (exists_phrase ha)
      obtain ⟨r, hr⟩ := exists_operand hb (exists_phrase hb)
      have hwords := (mentions_operand ha (fun _ => iha ha) hl.chars_eq).append
        (mentions_operand hb (fun _ => ihb hb) hr.chars_eq)
      exact mentions_of_chars_eq ((says_binary hl hr).chars_eq.trans hp.symm) hwords
  | unary op a ih =>
      rw [writtenIn] at h ⊢
      cases op with
      | abs =>
          obtain ⟨q, hq⟩ := exists_phrase h
          have hwords := ih h hq.chars_eq
          exact mentions_of_chars_eq ((says_abs hq).chars_eq.trans hp.symm) hwords
      | neg =>
          obtain ⟨o, ho⟩ := exists_operand h (exists_phrase h)
          have hwords := mentions_operand h (fun _ => ih h) ho.chars_eq
          exact mentions_of_chars_eq ((says_neg ho).chars_eq.trans hp.symm) hwords
  | element array index iharray ihindex =>
      rw [writtenIn] at h ⊢
      obtain ⟨harray, hindex⟩ := List.forall_mem_append.mp h
      have hitems : ∀ e ∈ array, ∀ x ∈ writtenIn e, Known names owner x.id := fun e he x hx =>
        harray x (mem_writtenInAll.mpr ⟨e, he, hx⟩)
      obtain ⟨ps, hps⟩ := exists_forall₂ fun e he => exists_phrase (hitems e he)
      obtain ⟨q, hq⟩ := exists_phrase hindex
      refine mentions_of_chars_eq ((says_element hps hq).chars_eq.trans hp.symm) ?_
      rw [Phrase.words_lookup]
      exact (mentions_all (fun e he _ hp => iharray e he (hitems e he) hp)
        (chars_of_allSay hps)).append (ihindex hindex hq.chars_eq)

/-! ## The variable that has the name -/

/-- Without closing brackets, the name of the variable is that of the array. -/
def asksForArrayName (x : Variable) : Bool :=
  x.name.toList.filter (· != ']') == arrayName.toList

theorem eq_of_sanitized_eq {c d : Char} (hd : d ≠ '_') (h : sanitized c = d) : c = d := by
  rw [sanitized] at h
  split at h
  · exact absurd h.symm hd
  · exact h

theorem sanitize_eq_arrayName_iff {x : Variable} :
    sanitize x.name = arrayName ↔ asksForArrayName x = true := by
  rw [asksForArrayName, beq_iff_eq, ← String.toList_inj, toList_sanitize]
  constructor
  · intro h
    have hletters : arrayName.toList.all (· != '_') = true := by decide
    rw [← h, List.all_eq_true] at hletters
    rw [← h]
    refine (List.map_id' _).symm.trans (List.map_congr_left fun c hc => ?_)
    exact eq_of_sanitized_eq (bne_iff_ne.mp (hletters _ (List.mem_map_of_mem hc))) rfl
  · intro h
    rw [h]
    decide

/-- The first variable that is met and asks for the name of the array. -/
def arrayRival (calls : List Call) : Option Variable :=
  (met [] (calls.flatMap Call.written)).find? asksForArrayName

/-- It gets the name, and nobody else does. -/
theorem names_eq_arrayName_iff {calls : List Call} {id : VarId}
    (hid : ((programAfter calls).name? id).isSome) :
    (programAfter calls).names id = arrayName ↔ ∃ y, arrayRival calls = some y ∧ y.id = id := by
  have horderly := orderly_programAfter calls
  have hasks : (fun d : Declaration => sanitize d.var.name == arrayName) =
      asksForArrayName ∘ Declaration.var := by
    funext d
    rw [Bool.eq_iff_iff, beq_iff_eq]
    exact sanitize_eq_arrayName_iff
  have hrival : arrayRival calls = ((programAfter calls).declarations.toList.find?
      fun d => sanitize d.var.name == arrayName).map (·.var) := by
    rw [arrayRival, ← declared_programAfter, Program.declared, List.find?_map, hasks]
  obtain ⟨x, hx, rfl⟩ := Program.isSome_name?_iff.mp hid
  obtain ⟨d, hd, rfl⟩ := List.mem_map.mp hx
  have hlast : arrayName.toList.getLast? = some 'r' := by decide
  have hdigit : ∀ c ∈ arrayName.toList.getLast?, c.isDigit = false := fun c hc => by
    obtain rfl : 'r' = c := Option.some.inj (hlast.symm.trans hc)
    rfl
  rw [horderly.names_eq hd, horderly.name_eq_iff hd hdigit, hrival]
  constructor
  · intro hfind
    exact ⟨d.var, by rw [hfind]; rfl, rfl⟩
  · rintro ⟨y, hy, hid⟩
    obtain ⟨e, he, rfl⟩ := Option.map_eq_some_iff.mp hy
    have hmem := List.mem_of_find?_eq_some he
    rw [he, horderly.eq_of_id_eq hmem hd hid]

/-! ## Lookups that capture nothing -/

/-- In the text of a lookup no variable has the name of the array if and only if the first variable
that asks for that name is neither in the array nor in the index, at any depth. Where all names are
words, this is if and only if all words of the text refer to declarations outside of it. -/
theorem capture_free_iff {calls : List Call} {array : List Expr} {index : Expr}
    (hdeclared : ∀ x ∈ writtenInAll array ++ writtenIn index,
      ((programAfter calls).name? x.id).isSome) :
    ((∀ x ∈ writtenInAll array ++ writtenIn index, (programAfter calls).names x.id ≠ arrayName) ↔
      ∀ y ∈ arrayRival calls, ∀ x ∈ writtenInAll array ++ writtenIn index, x.id ≠ y.id) ∧
    ((∀ d ∈ (programAfter calls).declarations.toList, IsName d.name.toList) →
      ∃ p : Phrase .whole,
        p.chars = (renderExpr (programAfter calls).names (.element array index)).toList ∧
        Mentions (programAfter calls).names (writtenInAll array ++ writtenIn index) p.words ∧
        (p.free = p.words ↔
          ∀ y ∈ arrayRival calls, ∀ x ∈ writtenInAll array ++ writtenIn index, x.id ≠ y.id)) := by
  have hnamed : (∀ x ∈ writtenInAll array ++ writtenIn index,
      (programAfter calls).names x.id ≠ arrayName) ↔
        ∀ y ∈ arrayRival calls, ∀ x ∈ writtenInAll array ++ writtenIn index, x.id ≠ y.id := by
    constructor
    · intro h y hy x hx hid
      exact h x hx ((names_eq_arrayName_iff (hdeclared x hx)).mpr ⟨y, hy, hid.symm⟩)
    · intro h x hx hname
      obtain ⟨y, hy, hid⟩ := (names_eq_arrayName_iff (hdeclared x hx)).mp hname
      exact h y hy x hx hid.symm
  refine ⟨hnamed, fun hnames => ?_⟩
  have hknown : ∀ x ∈ writtenIn (.element array index),
      Known (programAfter calls).names (programAfter calls).owner x.id := fun x hx =>
    (orderly_programAfter calls).known hnames (hdeclared x (by rwa [writtenIn] at hx))
  have hparts := hknown
  rw [writtenIn] at hparts
  obtain ⟨harray, hindex⟩ := List.forall_mem_append.mp hparts
  obtain ⟨ps, hps⟩ := exists_forall₂ fun e he => exists_phrase fun x hx =>
    harray x (mem_writtenInAll.mpr ⟨e, he, hx⟩)
  obtain ⟨q, hq⟩ := exists_phrase hindex
  have hchars := (says_element hps hq).chars_eq
  have hwords := mentions_expr hknown hchars
  rw [writtenIn] at hwords
  refine ⟨_, hchars, hwords, ?_⟩
  have harrayName : IsName arrayName.toList := by decide
  rw [Phrase.free_lookup_eq_iff, hwords _ harrayName, ← hnamed]
  simp only [String.toList_inj, not_exists, not_and, ne_eq]

/-- A variable that has the name of the array of every lookup, and one with another name. -/
def namesake : IntVar := { digit 0 with name := "arr" }

def item : IntVar := { digit 1 with name := "y" }

/-- A position. -/
def position : IntVar := ⟨2, "i", .boolean⟩

/-- All of them are bound. -/
def namesakeCalls : List Call := [.bind (.int namesake), .bind (.int item), .bind (.int position)]

/-- Outside of lookups the variable does no harm. -/
theorem capture_free_iff_namesakeOutside :
    (programAfter namesakeCalls).names namesake.id = arrayName ∧
      ∃ p : Phrase .whole, p.free = p.words ∧ p.chars =
        "\n    let \x7b array[int] of var int: arr=array1d(0..0,[y]) \x7d in\n      arr[i]".toList := by
  have hdeclared : ∀ x ∈ writtenInAll [.ofInt item] ++ writtenIn (.ofInt position),
      ((programAfter namesakeCalls).name? x.id).isSome := by
    decide +kernel
  have hnames : ∀ d ∈ (programAfter namesakeCalls).declarations.toList, IsName d.name.toList := by
    decide +kernel
  have hrival : arrayRival namesakeCalls = some (.int namesake) := rfl
  obtain ⟨p, hchars, -, hfree⟩ := (capture_free_iff hdeclared).2 hnames
  refine ⟨by decide +kernel, p, hfree.mpr ?_, ?_⟩
  · rw [hrival]
    decide +kernel
  · rw [hchars, renderExpr_element]
    simp only [List.map_cons, List.map_nil, Expr.ofInt, renderExpr_atom]
    decide +kernel

/-- In a lookup it is taken for the array. -/
theorem namesake_captured :
    let calls : List Call := [.setObjective
      (.element [.ofInt namesake, .ofInt item] (.ofInt position)) .minimise]
    .int namesake ∈ writtenInAll [.ofInt namesake, .ofInt item] ∧
      (programAfter calls).names namesake.id = arrayName ∧
      renderExpr (programAfter calls).names
          (.element [.ofInt namesake, .ofInt item] (.ofInt position)) =
        "\n    let \x7b array[int] of var int: arr=array1d(0..1,[arr,y]) \x7d in\n      arr[i]" := by
  intro calls
  have hnames : (programAfter calls).names 0 = "arr" ∧ (programAfter calls).names 1 = "y" ∧
      (programAfter calls).names 2 = "i" := by
    decide +kernel
  refine ⟨?_, hnames.1, ?_⟩
  · simp [writtenInAll, writtenIn, Expr.ofInt, Atom.vars]
  · rw [renderExpr_element]
    simp only [List.map_cons, List.map_nil, Expr.ofInt, renderExpr_atom, renderAtom, namesake,
      item, position, hnames]
    decide +kernel

end FiniteDomain.MiniZinc
