import FiniteDomain.Proofs.MiniZinc.Phrases

/-!
# Reading phrases back

A phrase can be read back: where its end can be seen, no other phrase has the same text. The first
word of a text tells which kind of phrase it is, and the parts are read back one after the other.
-/

namespace FiniteDomain.MiniZinc

open Text

/-! ## Texts that can be read back -/

/-- The item is determined by a text that begins with its own, if it can be seen where that
ends. -/
def Unambiguous {α : Type} (text : α → List Char) (ends : List Char → Prop) (x : α) : Prop :=
  ∀ y r s, ends r → ends s → text x ++ r = text y ++ s → x = y ∧ r = s

theorem separatedByCommas_cons_cons (text text' : List Char) (texts : List (List Char)) :
    separatedByCommas (text :: text' :: texts) =
      text ++ ',' :: separatedByCommas (text' :: texts) := by
  rw [separatedByCommas, separatedByCommas, List.intercalate_cons_cons, List.append_assoc]
  rfl

section Items

variable {α : Type} {text : α → List Char} {ends : List Char → Prop} {close : Char}

/-- The first of several items, and what follows it. -/
theorem exists_more (text : α → List Char) (hcomma : ∀ r, ends (',' :: r))
    (hclose : ∀ r, ends (close :: r)) (x : α) (xs : List α) (r : List Char) :
    ∃ more, separatedByCommas ((x :: xs).map text) ++ close :: r = text x ++ more ∧ ends more ∧
      (xs = [] ∧ more = close :: r ∨
        xs ≠ [] ∧ more = ',' :: (separatedByCommas (xs.map text) ++ close :: r)) := by
  cases xs with
  | nil => exact ⟨close :: r, by simp [separatedByCommas], hclose r, .inl ⟨rfl, rfl⟩⟩
  | cons x' xs =>
      refine ⟨_, ?_, hcomma _, .inr ⟨List.cons_ne_nil _ _, rfl⟩⟩
      simp only [List.map_cons, separatedByCommas_cons_cons, List.append_assoc, List.cons_append]

/-- Items do not begin like the end of their list. -/
theorem separatedByCommas_ne (hfirst : ∀ x, ∃ c rest, text x = c :: rest ∧ c ≠ close) (x : α)
    (xs : List α) (r s : List Char) :
    close :: r ≠ separatedByCommas ((x :: xs).map text) ++ s := by
  intro h
  obtain ⟨c, rest, htext, hc⟩ := hfirst x
  cases xs with
  | nil =>
      simp only [separatedByCommas, List.map_cons, List.map_nil, List.intercalate_singleton, htext,
        List.cons_append] at h
      exact hc (List.cons.inj h).1.symm
  | cons x' xs =>
      simp only [List.map_cons, separatedByCommas_cons_cons, htext, List.cons_append] at h
      exact hc (List.cons.inj h).1.symm

/-- Items with commas between them, up to a character that cannot be the first of an item, are
read one after the other. -/
theorem unambiguous_items (hcomma : ∀ r, ends (',' :: r)) (hclose : ∀ r, ends (close :: r))
    (hne : close ≠ ',') (hfirst : ∀ x, ∃ c rest, text x = c :: rest ∧ c ≠ close) {xs : List α}
    (hxs : ∀ x ∈ xs, Unambiguous text ends x) {ys : List α} {r s : List Char}
    (h : separatedByCommas (xs.map text) ++ close :: r =
      separatedByCommas (ys.map text) ++ close :: s) : xs = ys ∧ r = s := by
  induction xs generalizing ys with
  | nil =>
      cases ys with
      | nil => exact ⟨rfl, (List.cons.inj h).2⟩
      | cons y ys => exact absurd h (separatedByCommas_ne hfirst y ys r _)
  | cons x xs ih =>
      cases ys with
      | nil => exact absurd h.symm (separatedByCommas_ne hfirst x xs s _)
      | cons y ys =>
          obtain ⟨hx, hxs⟩ := List.forall_mem_cons.mp hxs
          obtain ⟨more, hmore, hends, hcases⟩ := exists_more text hcomma hclose x xs r
          obtain ⟨more', hmore', hends', hcases'⟩ := exists_more text hcomma hclose y ys s
          obtain ⟨rfl, rfl⟩ := hx y more more' hends hends' (by rw [← hmore, h, hmore'])
          -- Both lists end here or both go on: the closing character is no comma.
          rcases hcases with ⟨rfl, heq⟩ | ⟨-, heq⟩ <;>
            rcases hcases' with ⟨rfl, heq'⟩ | ⟨-, heq'⟩
          · exact ⟨rfl, (List.cons.inj (heq.symm.trans heq')).2⟩
          · exact absurd (List.cons.inj (heq.symm.trans heq')).1 hne
          · exact absurd (List.cons.inj (heq'.symm.trans heq)).1 hne
          · obtain ⟨rfl, hrest⟩ := ih hxs (List.cons.inj (heq.symm.trans heq')).2
            exact ⟨rfl, hrest⟩

end Items

/-! ## Numbers -/

/-- No digit comes next, so a numeral ends here. -/
def EndsNumeral (r : List Char) : Prop := NoneAhead Char.isDigit r

theorem append_inj_of_chunks {kind : Char → Bool} {a b r s : List Char} (ha : ∀ c ∈ a, kind c)
    (hb : ∀ c ∈ b, kind c) (hr : NoneAhead kind r) (hs : NoneAhead kind s) (h : a ++ r = b ++ s) :
    a = b ∧ r = s := by
  have htake := congrArg (List.takeWhile kind) h
  rw [takeWhile_chunk ha hr, takeWhile_chunk hb hs] at htake
  have hdrop := congrArg (List.dropWhile kind) h
  rw [dropWhile_chunk ha hr, dropWhile_chunk hb hs] at hdrop
  exact ⟨htake, hdrop⟩

theorem exists_numeral_cons (n : Nat) : ∃ c rest, numeral n = c :: rest ∧ c.isDigit := by
  obtain ⟨c, rest, h⟩ := List.exists_cons_of_ne_nil (numeral_ne_nil n)
  exact ⟨c, rest, h, isDigit_of_mem_numeral (h ▸ List.mem_cons_self)⟩

theorem unambiguous_numeral (n : Nat) : Unambiguous numeral EndsNumeral n := by
  intro m r s hr hs h
  obtain ⟨heq, hrest⟩ := append_inj_of_chunks (fun _ => isDigit_of_mem_numeral)
    (fun _ => isDigit_of_mem_numeral) hr hs h
  refine ⟨?_, hrest⟩
  rw [← numberOf_numeral n, heq, numberOf_numeral]

theorem numeral_append_ne (n : Nat) (r s : List Char) : numeral n ++ r ≠ '-' :: s := by
  obtain ⟨c, rest, h, hc⟩ := exists_numeral_cons n
  rw [h]
  intro heq
  exact absurd ((List.cons.inj heq).1 ▸ hc) (by decide)

theorem unambiguous_signedNumeral (v : Int) : Unambiguous signedNumeral EndsNumeral v := by
  intro w r s hr hs h
  rw [signedNumeral, signedNumeral] at h
  split at h <;> split at h
  · obtain ⟨heq, hrest⟩ := unambiguous_numeral _ _ _ _ hr hs (List.cons.inj h).2
    exact ⟨by omega, hrest⟩
  · exact absurd h.symm (numeral_append_ne _ _ _)
  · exact absurd h (numeral_append_ne _ _ _)
  · obtain ⟨heq, hrest⟩ := unambiguous_numeral _ _ _ _ hr hs h
    exact ⟨by omega, hrest⟩

/-- A number begins with a digit or a minus sign. -/
theorem exists_signedNumeral_cons {close : Char} (hdigit : close.isDigit = false)
    (hminus : close ≠ '-') (v : Int) : ∃ c rest, signedNumeral v = c :: rest ∧ c ≠ close := by
  obtain ⟨c, rest, h⟩ := List.exists_cons_of_ne_nil (signedNumeral_ne_nil v)
  exact ⟨c, rest, h, ne_of_mem_signedNumeral hdigit hminus (h ▸ List.mem_cons_self)⟩

theorem rowChars_append (row : List Int) (r : List Char) :
    rowChars row ++ r = separatedByCommas (row.map signedNumeral) ++ ' ' :: '|' :: r := by
  rw [rowChars, List.append_assoc]
  rfl

theorem rowChars_inj {row row' : List Int} {r s : List Char}
    (h : rowChars row ++ r = rowChars row' ++ s) : row = row' ∧ r = s := by
  rw [rowChars_append, rowChars_append] at h
  have hends : ∀ c r, c.isDigit = false → EndsNumeral (c :: r) := fun _ _ hc => noneAhead_cons hc
  obtain ⟨heq, hrest⟩ := unambiguous_items (fun r => hends ',' r rfl) (fun r => hends ' ' r rfl)
    (by decide) (exists_signedNumeral_cons rfl (by decide))
    (fun v _ => unambiguous_signedNumeral v) h
  exact ⟨heq, (List.cons.inj hrest).2⟩

theorem rowChars_append_ne (row : List Int) (r s : List Char) : '\n' :: r ≠ rowChars row ++ s := by
  rw [rowChars_append]
  cases row with
  | nil => simp [separatedByCommas]
  | cons v row => exact separatedByCommas_ne (exists_signedNumeral_cons rfl (by decide)) v row r _

/-- The rows of a table are read one after the other, up to a newline. -/
theorem rows_inj {rows rows' : List (List Int)} {r s : List Char}
    (h : rows.flatMap rowChars ++ '\n' :: r = rows'.flatMap rowChars ++ '\n' :: s) :
    rows = rows' ∧ r = s := by
  induction rows generalizing rows' with
  | nil =>
      cases rows' with
      | nil => exact ⟨rfl, (List.cons.inj h).2⟩
      | cons row' rows' =>
          rw [List.flatMap_cons, List.append_assoc] at h
          exact absurd h (rowChars_append_ne row' r _)
  | cons row rows ih =>
      rw [List.flatMap_cons, List.append_assoc] at h
      cases rows' with
      | nil => exact absurd h.symm (rowChars_append_ne row s _)
      | cons row' rows' =>
          rw [List.flatMap_cons, List.append_assoc] at h
          obtain ⟨rfl, hrows⟩ := rowChars_inj h
          obtain ⟨rfl, hrest⟩ := ih hrows
          exact ⟨rfl, hrest⟩

/-! ## Symbols and functions -/

namespace Symbol

/-- All symbols. -/
def all : List Symbol :=
  [plus, implies, times, shift] ++ [.sub, .mul, .div, .mod, .pow].map operation
    ++ [.and, .or, .xor].map connective
    ++ [.equal, .notEqual, .lessOrEqual, .less, .greaterOrEqual, .greater].map comparison

/-- The symbol with which a text begins. -/
def read? (cs : List Char) : Option Symbol := all.find? fun symbol => symbol.chars.isPrefixOf cs

/-- No symbol is the beginning of another one. -/
theorem read?_append (symbol : Symbol) (r : List Char) :
    read? (symbol.chars ++ r) = some symbol := by
  rcases symbol with _ | op | kind | _ | comparator | _ | _
  · rfl
  · cases op <;> rfl
  · cases kind <;> rfl
  · rfl
  · cases comparator <;> rfl
  · rfl
  · rfl

theorem chars_append_inj {symbol symbol' : Symbol} {r s : List Char}
    (h : symbol.chars ++ r = symbol'.chars ++ s) : symbol = symbol' ∧ r = s := by
  have hread := congrArg read? h
  rw [read?_append, read?_append, Option.some.injEq] at hread
  subst hread
  exact ⟨rfl, List.append_cancel_left h⟩

end Symbol

namespace Callee

/-- All functions. -/
def all : List Callee :=
  [sum, allDifferent, allEqual, circuit, subcircuit] ++ [.and, .or, .xor].map connective

theorem find?_chars (f : Callee) : (all.find? fun g => g.chars == f.chars) = some f := by
  cases f with
  | connective kind => cases kind <;> rfl
  | _ => rfl

theorem chars_injective : Function.Injective chars := by
  intro f g h
  have hfind := find?_chars f
  rw [h, find?_chars] at hfind
  exact (Option.some.inj hfind).symm

/-- The name is a word, and not one that is used for something else. -/
theorem chars_spec (f : Callee) :
    f.chars ≠ [] ∧ (∀ c ∈ f.chars, isIdentRest c) ∧
      ∀ cs ∈ ["not".toList, "abs".toList, "table".toList], f.chars ≠ cs := by
  rw [← List.all_eq_true]
  cases f with
  | connective kind => cases kind <;> decide
  | _ => decide

end Callee

namespace Phrase

/-! ## How a phrase begins and ends -/

/-- What the end of a phrase is seen by. -/
def Follows : Shape → List Char → Prop
  | .operand, r => ∀ c ∈ r.head?, isIdentRest c = false ∧ c ≠ '('
  | .whole, r => ∀ c ∈ r.head?, c = ',' ∨ c = ')' ∨ c = ']'

theorem Follows.operand {r : List Char} (h : Follows .whole r) : Follows .operand r := by
  intro c hc
  rcases h c hc with rfl | rfl | rfl <;> decide

theorem follows_cons {c : Char} (hc : c = ',' ∨ c = ')' ∨ c = ']') (r : List Char) :
    Follows .whole (c :: r) := by
  simpa [Follows] using hc

theorem exists_symbol_cons (symbol : Symbol) :
    ∃ c rest, symbol.chars = c :: rest ∧ (c = ' ' ∨ c = '*' ∨ c = '+') := by
  cases symbol with
  | times => exact ⟨_, _, rfl, .inr (.inl rfl)⟩
  | shift => exact ⟨_, _, rfl, .inr (.inr rfl)⟩
  | plus => exact ⟨_, _, rfl, .inl rfl⟩
  | implies => exact ⟨_, _, rfl, .inl rfl⟩
  | operation op => exact ⟨_, _, rfl, .inl rfl⟩
  | connective kind => exact ⟨_, _, rfl, .inl rfl⟩
  | comparison comparator => exact ⟨_, _, rfl, .inl rfl⟩

theorem follows_symbol (symbol : Symbol) (r : List Char) :
    Follows .operand (symbol.chars ++ r) := by
  obtain ⟨c, rest, heq, hc⟩ := exists_symbol_cons symbol
  intro d hd
  obtain rfl : c = d := by simpa [heq] using hd
  rcases hc with rfl | rfl | rfl <;> decide

theorem not_follows_symbol (symbol : Symbol) (r : List Char) :
    ¬ Follows .whole (symbol.chars ++ r) := by
  obtain ⟨c, rest, heq, hc⟩ := exists_symbol_cons symbol
  intro h
  have hclosing := h c (by rw [heq]; rfl)
  rcases hc with rfl | rfl | rfl <;> exact absurd hclosing (by decide)

/-- What the beginning of a text tells about the phrase. -/
inductive Lead where
  | operand
  | negation
  | lookup
  | function (name : List Char)

/-- The first word decides, and whether there is one at all. -/
def leadOf (cs : List Char) : Lead :=
  if cs.head? = some '\n' then .lookup
  else if cs.takeWhile isIdentRest = "not".toList then .negation
  else if cs.takeWhile isIdentRest ≠ [] ∧ (cs.dropWhile isIdentRest).head? = some '(' then
    .function (cs.takeWhile isIdentRest)
  else .operand

/-- How a phrase begins. -/
def lead : Phrase .whole → Lead
  | plain _ => .operand
  | binary _ _ _ => .operand
  | negation _ => .negation
  | call f _ => .function f.chars
  | magnitude _ => .function "abs".toList
  | table _ _ => .function "table".toList
  | lookup _ _ _ => .lookup

theorem head?_append_ne_newline {cs r : List Char} (hne : cs ≠ []) (hcs : ∀ c ∈ cs, isIdentRest c) :
    (cs ++ r).head? ≠ some '\n' := by
  obtain ⟨c, rest, rfl⟩ := List.exists_cons_of_ne_nil hne
  intro h
  obtain rfl : c = '\n' := by simpa using h
  exact absurd (hcs '\n' List.mem_cons_self) (by decide)

theorem leadOf_function {name r : List Char} (hne : name ≠ []) (hname : ∀ c ∈ name, isIdentRest c)
    (hnot : name ≠ "not".toList) : leadOf (name ++ '(' :: r) = .function name := by
  have hopen : NoneAhead isIdentRest ('(' :: r) := noneAhead_cons rfl
  rw [leadOf, if_neg (head?_append_ne_newline hne hname), takeWhile_chunk hname hopen,
    dropWhile_chunk hname hopen, if_neg hnot, if_pos ⟨hne, rfl⟩]

theorem leadOf_operand (o : Phrase .operand) {r : List Char} (hr : Follows .operand r) :
    leadOf (o.chars ++ r) = .operand := by
  cases o with
  | word w =>
      have hend : NoneAhead isIdentRest r := fun c hc => (hr c hc).1
      rw [chars_word, leadOf, if_neg (head?_append_ne_newline w.ne_nil w.isIdentRest),
        takeWhile_chunk w.isIdentRest hend, dropWhile_chunk w.isIdentRest hend, if_neg w.ne_not,
        if_neg fun h => (hr '(' h.2).2 rfl]
  | minus o => rfl
  | group p => rfl

theorem leadOf_chars (p : Phrase .whole) {r : List Char} (hr : Follows .whole r) :
    leadOf (p.chars ++ r) = p.lead := by
  cases p with
  | plain o => exact leadOf_operand o hr.operand
  | binary symbol l o =>
      rw [chars_binary, List.append_assoc, List.append_assoc]
      exact leadOf_operand l (follows_symbol symbol _)
  | negation w => rfl
  | call f items =>
      rw [chars_call, List.append_assoc]
      obtain ⟨hne, hname, hother⟩ := f.chars_spec
      exact leadOf_function hne hname (hother _ (by simp))
  | magnitude p =>
      rw [chars_magnitude, List.append_assoc]
      exact leadOf_function (by decide) (List.all_eq_true.mp (by decide)) (by decide)
  | table columns rows =>
      rw [chars_table, List.append_assoc]
      exact leadOf_function (by decide) (List.all_eq_true.mp (by decide)) (by decide)
  | lookup isBool items index => rfl

theorem of_lead_operand {y : Phrase .whole} (h : y.lead = .operand) :
    (∃ o, y = plain o) ∨ ∃ symbol l r, y = binary symbol l r := by
  cases y with
  | plain o => exact .inl ⟨o, rfl⟩
  | binary symbol l r => exact .inr ⟨symbol, l, r, rfl⟩
  | _ => cases h

theorem of_lead_negation {y : Phrase .whole} (h : y.lead = .negation) : ∃ w, y = negation w := by
  cases y with
  | negation w => exact ⟨w, rfl⟩
  | _ => cases h

theorem of_lead_lookup {y : Phrase .whole} (h : y.lead = .lookup) :
    ∃ isBool items index, y = lookup isBool items index := by
  cases y with
  | lookup isBool items index => exact ⟨isBool, items, index, rfl⟩
  | _ => cases h

theorem of_lead_call {f : Callee} {y : Phrase .whole} (h : y.lead = .function f.chars) :
    ∃ items, y = call f items := by
  have hother := f.chars_spec.2.2
  cases y with
  | call g items =>
      rw [Callee.chars_injective (Lead.function.inj h)]
      exact ⟨items, rfl⟩
  | magnitude p => exact absurd (Lead.function.inj h).symm (hother _ (by simp))
  | table columns rows => exact absurd (Lead.function.inj h).symm (hother _ (by simp))
  | _ => cases h

theorem of_lead_magnitude {y : Phrase .whole} (h : y.lead = .function "abs".toList) :
    ∃ p, y = magnitude p := by
  cases y with
  | magnitude p => exact ⟨p, rfl⟩
  | call f items => exact absurd (Lead.function.inj h) (f.chars_spec.2.2 _ (by simp))
  | table columns rows => exact absurd (Lead.function.inj h) (by decide)
  | _ => cases h

theorem of_lead_table {y : Phrase .whole} (h : y.lead = .function "table".toList) :
    ∃ columns rows, y = table columns rows := by
  cases y with
  | table columns rows => exact ⟨columns, rows, rfl⟩
  | call f items => exact absurd (Lead.function.inj h) (f.chars_spec.2.2 _ (by simp))
  | magnitude p => exact absurd (Lead.function.inj h) (by decide)
  | _ => cases h

/-! ## Reading phrases back -/

/-- A property of phrases holds if it carries over from the parts to the whole. -/
theorem induction {P : ∀ {shape : Shape}, Phrase shape → Prop} (word : ∀ w, P (word w))
    (minus : ∀ o, P o → P (minus o)) (group : ∀ p, P p → P (group p))
    (plain : ∀ o, P o → P (plain o)) (binary : ∀ symbol l r, P l → P r → P (binary symbol l r))
    (negation : ∀ w, P (negation w)) (call : ∀ f items, (∀ p ∈ items, P p) → P (call f items))
    (magnitude : ∀ p, P p → P (magnitude p))
    (table : ∀ columns rows, (∀ p ∈ columns, P p) → P (table columns rows))
    (lookup : ∀ isBool items index, (∀ p ∈ items, P p) → P index → P (lookup isBool items index))
    {shape : Shape} (p : Phrase shape) : P p :=
  @Phrase.rec (fun _ p => P p) (fun ps => ∀ p ∈ ps, P p) word minus group plain binary negation call
    magnitude table lookup (by simp) (fun _ _ hp hps => List.forall_mem_cons.mpr ⟨hp, hps⟩) shape p

/-- The phrase can be read back where its end can be seen. -/
abbrev Readable {shape : Shape} (p : Phrase shape) : Prop := Unambiguous chars (Follows shape) p

theorem word_append_ne (w : Word) {c : Char} (hc : isIdentRest c = false) (r s : List Char) :
    w.chars ++ r ≠ c :: s := by
  obtain ⟨d, rest, h⟩ := List.exists_cons_of_ne_nil w.ne_nil
  intro heq
  rw [h] at heq
  have hd := w.isIdentRest d (h ▸ List.mem_cons_self)
  exact Bool.false_ne_true (hc ▸ (List.cons.inj heq).1 ▸ hd)

theorem exists_operand_cons (o : Phrase .operand) : ∃ c rest, o.chars = c :: rest ∧ c ≠ ']' := by
  cases o with
  | word w =>
      obtain ⟨c, rest, h⟩ := List.exists_cons_of_ne_nil w.ne_nil
      refine ⟨c, rest, h, ?_⟩
      rintro rfl
      exact absurd (w.isIdentRest _ (h ▸ List.mem_cons_self)) (by decide)
  | minus o => exact ⟨_, _, rfl, by decide⟩
  | group p => exact ⟨_, _, rfl, by decide⟩

/-- A whole phrase does not begin like the end of a list. -/
theorem exists_chars_cons (p : Phrase .whole) : ∃ c rest, p.chars = c :: rest ∧ c ≠ ']' := by
  cases p with
  | plain o => exact exists_operand_cons o
  | binary symbol l r =>
      obtain ⟨c, rest, h, hc⟩ := exists_operand_cons l
      exact ⟨c, _, by rw [chars_binary, h]; rfl, hc⟩
  | call f items =>
      obtain ⟨hne, hname, -⟩ := f.chars_spec
      obtain ⟨c, rest, h⟩ := List.exists_cons_of_ne_nil hne
      refine ⟨c, _, by rw [chars_call, h]; rfl, ?_⟩
      rintro rfl
      exact absurd (hname _ (h ▸ List.mem_cons_self)) (by decide)
  | negation w => exact ⟨'n', _, rfl, by decide⟩
  | magnitude p => exact ⟨'a', _, rfl, by decide⟩
  | table columns rows => exact ⟨'t', _, rfl, by decide⟩
  | lookup isBool items index => exact ⟨'\n', _, rfl, by decide⟩

theorem readable_word (w : Word) : Readable (word w) := by
  intro y r s hr hs h
  cases y with
  | word w' =>
      obtain ⟨heq, hrest⟩ := append_inj_of_chunks w.isIdentRest w'.isIdentRest
        (fun c hc => (hr c hc).1) (fun c hc => (hs c hc).1) h
      exact ⟨congrArg word (Word.ext heq), hrest⟩
  | minus o => exact absurd h (word_append_ne w rfl r _)
  | group p => exact absurd h (word_append_ne w rfl r _)

theorem readable_minus {o : Phrase .operand} (ho : Readable o) : Readable (minus o) := by
  intro y r s hr hs h
  cases y with
  | word w => exact absurd h.symm (word_append_ne w rfl s _)
  | minus o' =>
      obtain ⟨rfl, hrest⟩ := ho o' r s hr hs (List.cons.inj h).2
      exact ⟨rfl, hrest⟩
  | group p => exact absurd (List.cons.inj h).1 (by decide)

theorem readable_group {p : Phrase .whole} (hp : Readable p) : Readable (group p) := by
  intro y r s hr hs h
  cases y with
  | word w => exact absurd h.symm (word_append_ne w rfl s _)
  | minus o => exact absurd (List.cons.inj h).1 (by decide)
  | group p' =>
      have hinner : p.chars ++ ')' :: r = p'.chars ++ ')' :: s := by
        simpa using h
      obtain ⟨rfl, hrest⟩ :=
        hp p' _ _ (follows_cons (by simp) r) (follows_cons (by simp) s) hinner
      exact ⟨rfl, (List.cons.inj hrest).2⟩

theorem lead_eq {p q : Phrase .whole} {r s : List Char} (hr : Follows .whole r)
    (hs : Follows .whole s) (h : p.chars ++ r = q.chars ++ s) : q.lead = p.lead := by
  rw [← leadOf_chars p hr, ← leadOf_chars q hs, h]

theorem readable_plain {o : Phrase .operand} (ho : Readable o) : Readable (plain o) := by
  intro y r s hr hs h
  rcases of_lead_operand (lead_eq hr hs h) with ⟨o', rfl⟩ | ⟨symbol, l, o', rfl⟩
  · obtain ⟨rfl, hrest⟩ := ho o' r s hr.operand hs.operand h
    exact ⟨rfl, hrest⟩
  · -- The operand would be followed by a symbol, but it is the whole phrase.
    simp only [chars_plain, chars_binary, List.append_assoc] at h
    obtain ⟨-, rfl⟩ := ho l r _ hr.operand (follows_symbol symbol _) h
    exact absurd hr (not_follows_symbol symbol _)

theorem readable_binary {symbol : Symbol} {a b : Phrase .operand} (ha : Readable a)
    (hb : Readable b) : Readable (binary symbol a b) := by
  intro y r s hr hs h
  rcases of_lead_operand (lead_eq hr hs h) with ⟨o, rfl⟩ | ⟨symbol', a', b', rfl⟩
  · simp only [chars_plain, chars_binary, List.append_assoc] at h
    obtain ⟨-, rfl⟩ := ha o _ s (follows_symbol symbol _) hs.operand h
    exact absurd hs (not_follows_symbol symbol _)
  · simp only [chars_binary, List.append_assoc] at h
    obtain ⟨rfl, hrest⟩ := ha a' _ _ (follows_symbol symbol _) (follows_symbol symbol' _) h
    obtain ⟨rfl, hrest'⟩ := Symbol.chars_append_inj hrest
    obtain ⟨rfl, hend⟩ := hb b' r s hr.operand hs.operand hrest'
    exact ⟨rfl, hend⟩

theorem readable_negation (w : Word) : Readable (negation w) := by
  intro y r s hr hs h
  obtain ⟨w', rfl⟩ := of_lead_negation (lead_eq hr hs h)
  simp only [chars_negation, List.append_assoc] at h
  obtain ⟨heq, hrest⟩ := readable_word w (word w') r s hr.operand hs.operand
    (List.append_cancel_left h)
  obtain rfl := word.inj heq
  exact ⟨rfl, hrest⟩

/-- Phrases in brackets. -/
theorem items_inj {items items' : List (Phrase .whole)} (h : ∀ p ∈ items, Readable p)
    {r s : List Char} (heq : separatedByCommas (items.map chars) ++ ']' :: r =
      separatedByCommas (items'.map chars) ++ ']' :: s) : items = items' ∧ r = s :=
  unambiguous_items (fun r => follows_cons (by simp) r) (fun r => follows_cons (by simp) r)
    (by decide) exists_chars_cons h heq

theorem readable_call {f : Callee} {items : List (Phrase .whole)} (h : ∀ p ∈ items, Readable p) :
    Readable (call f items) := by
  intro y r s hr hs heq
  obtain ⟨items', rfl⟩ := of_lead_call (lead_eq hr hs heq)
  simp only [chars_call, List.append_assoc, List.cons_append, List.nil_append] at heq
  obtain ⟨rfl, hrest⟩ :=
    items_inj h (List.cons.inj (List.cons.inj (List.append_cancel_left heq)).2).2
  exact ⟨rfl, (List.cons.inj hrest).2⟩

theorem readable_magnitude {p : Phrase .whole} (hp : Readable p) : Readable (magnitude p) := by
  intro y r s hr hs h
  obtain ⟨p', rfl⟩ := of_lead_magnitude (lead_eq hr hs h)
  simp only [chars_magnitude, List.append_assoc, List.cons_append, List.nil_append] at h
  obtain ⟨rfl, hrest⟩ := hp p' _ _ (follows_cons (by simp) r) (follows_cons (by simp) s)
    (List.cons.inj (List.append_cancel_left h)).2
  exact ⟨rfl, (List.cons.inj hrest).2⟩

theorem readable_table {columns : List (Phrase .whole)} {rows : List (List Int)}
    (h : ∀ p ∈ columns, Readable p) : Readable (table columns rows) := by
  intro y r s hr hs heq
  obtain ⟨columns', rows', rfl⟩ := of_lead_table (lead_eq hr hs heq)
  simp only [chars_table, List.append_assoc, List.cons_append] at heq
  obtain ⟨rfl, hrest⟩ :=
    items_inj h (List.cons.inj (List.cons.inj (List.append_cancel_left heq)).2).2
  obtain ⟨rfl, hend⟩ := rows_inj (List.append_cancel_left hrest)
  exact ⟨rfl, List.append_cancel_left hend⟩

theorem readable_lookup {isBool : Bool} {items : List (Phrase .whole)} {index : Phrase .whole}
    (hitems : ∀ p ∈ items, Readable p) (hindex : Readable index) :
    Readable (lookup isBool items index) := by
  intro y r s hr hs heq
  obtain ⟨isBool', items', index', rfl⟩ := of_lead_lookup (lead_eq hr hs heq)
  simp only [chars_lookup, List.append_assoc, List.cons_append, List.nil_append] at heq
  have htype := List.append_cancel_left heq
  obtain rfl : isBool = isBool' := by
    cases isBool <;> cases isBool'
    · rfl
    · exact absurd (List.cons.inj htype).1 (by decide)
    · exact absurd (List.cons.inj htype).1 (by decide)
    · rfl
  have hcomma : ∀ t, EndsNumeral (',' :: t) := fun _ => noneAhead_cons rfl
  obtain ⟨-, hlist⟩ := unambiguous_signedNumeral _ _ _ _ (hcomma _) (hcomma _)
    (List.append_cancel_left (List.append_cancel_left htype))
  obtain ⟨rfl, hrest⟩ := items_inj hitems (List.cons.inj (List.cons.inj hlist).2).2
  obtain ⟨rfl, hend⟩ := hindex index' _ _ (follows_cons (by simp) r) (follows_cons (by simp) s)
    (List.append_cancel_left hrest)
  exact ⟨rfl, (List.cons.inj hend).2⟩

/-- Every phrase can be read back. -/
theorem readable {shape : Shape} (p : Phrase shape) : Readable p := by
  induction p using Phrase.induction with
  | word w => exact readable_word w
  | minus o ho => exact readable_minus ho
  | group p hp => exact readable_group hp
  | plain o ho => exact readable_plain ho
  | binary symbol l r hl hr => exact readable_binary hl hr
  | negation w => exact readable_negation w
  | call f items hitems => exact readable_call hitems
  | magnitude p hp => exact readable_magnitude hp
  | table columns rows hcolumns => exact readable_table hcolumns
  | lookup isBool items index hitems hindex => exact readable_lookup hitems hindex

/-- Phrases with equal texts are equal. -/
theorem chars_injective : Function.Injective (chars : Phrase .whole → List Char) := by
  intro p q h
  exact (readable p q [] [] (by simp [Follows]) (by simp [Follows]) (by simpa using h)).1

end Phrase

end FiniteDomain.MiniZinc
