import FiniteDomain.MiniZinc.Program
import FiniteDomain.Proofs.Text.Scanning

/-!
# Reading declaration items

A declaration item says a type and an identifier: `var`, the type up to the first colon, and the
identifier up to the closing semicolon. The type is Boolean, a range or a set of integers, and has
the values that a variable of this type may take. Reading the item of a variable gives back its name
and its domain.
-/

namespace FiniteDomain.MiniZinc

open Text

/-- The type of a declared variable. -/
inductive DeclaredType where
  | bool
  | range (lower upper : Int)
  | set (members : List Int)

/-- The values of the type; truth values are 0 and 1. -/
def DeclaredType.Admits : DeclaredType → Int → Prop
  | bool, v => v = 0 ∨ v = 1
  | range lower upper, v => lower ≤ v ∧ v ≤ upper
  | set members, v => v ∈ members

/-- The integer that a text denotes: decimal digits, after a minus sign if it is negative. -/
def integer? (cs : List Char) : Option Int :=
  match dropStart? ['-'] cs with
  | some digits => (natural? digits).map fun n : Nat => -(n : Int)
  | none => (natural? cs).map Int.ofNat

/-- Reads a type: `bool`, two integers with two points between them, or integers with commas between
them in braces. -/
def readType? (cs : List Char) : Option DeclaredType :=
  if cs = "bool".toList then some .bool
  else
    match dropStart? ['\x7b'] cs with
    | some rest =>
      if rest.getLast? = some '\x7d' then
        ((rest.dropLast.splitOn ',').mapM integer?).map .set
      else none
    | none =>
      match integer? (cs.takeWhile (· != '.')), dropStart? ['.', '.'] (cs.dropWhile (· != '.')) with
      | some lower, some rest => (integer? rest).map (.range lower)
      | _, _ => none

/-- Reads a declaration item. -/
def readDeclaration? (text : String) : Option (DeclaredType × String) :=
  match dropStart? "var ".toList text.toList with
  | none => none
  | some cs =>
    match readType? (cs.takeWhile (· != ':')), dropStart? ": ".toList (cs.dropWhile (· != ':')) with
    | some type, some rest =>
      if rest.getLast? = some ';' then some (type, String.ofList rest.dropLast) else none
    | _, _ => none

/-- The text is a declaration of the variable under the name: it is read as the name and a type that
is Boolean if the variable is, and whose values are those of its domain. -/
def Declares (text name : String) (x : Variable) : Prop :=
  ∃ type, readDeclaration? text = some (type, name) ∧ (type = .bool ↔ x.isBoolean = true) ∧
    ∀ v, type.Admits v ↔ x.domain.contains v = true

variable {c : Char}

/-! ## Numbers -/

theorem integer?_signedNumeral (v : Int) : integer? (signedNumeral v) = some v := by
  rw [signedNumeral]
  split
  · have hminus := dropStart?_append ['-'] (numeral v.natAbs)
    rw [List.singleton_append] at hminus
    rw [integer?, hminus]
    simp only [natural?_numeral, Option.map_some, Option.some.injEq]
    omega
  · have hnone : dropStart? ['-'] (numeral v.natAbs) = none := by
      cases hdrop : dropStart? ['-'] (numeral v.natAbs) with
      | none => rfl
      | some rest =>
          have hminus : '-' ∈ numeral v.natAbs := by
            rw [dropStart?_eq_some_iff.mp hdrop]
            exact List.mem_cons_self
          exact absurd (isDigit_of_mem_numeral hminus) (by decide)
    rw [integer?, hnone]
    simp only [natural?_numeral, Option.map_some, Option.some.injEq, Int.ofNat_eq_natCast]
    omega

theorem mapM_integer?_signedNumeral (vs : List Int) :
    (vs.map signedNumeral).mapM integer? = some vs := by
  induction vs with
  | nil => rfl
  | cons v vs ih => simp [List.mapM_cons, integer?_signedNumeral, ih]

/-! ## Types -/

theorem mem_intercalate_comma {texts : List (List Char)} (hc : c ∈ [','].intercalate texts) :
    c = ',' ∨ ∃ text ∈ texts, c ∈ text := by
  induction texts with
  | nil => simp [List.intercalate] at hc
  | cons text texts ih =>
      cases texts with
      | nil => exact .inr ⟨text, by simp, by simpa using hc⟩
      | cons text' texts =>
          rw [List.intercalate_cons_cons, List.append_assoc, List.mem_append,
            List.singleton_append, List.mem_cons] at hc
          rcases hc with hc | rfl | hc
          · exact .inr ⟨text, List.mem_cons_self, hc⟩
          · exact .inl rfl
          · refine (ih hc).imp_right fun ⟨text, htext, hc⟩ => ?_
            exact ⟨text, List.mem_cons_of_mem _ htext, hc⟩

/-- The text of the type of a variable. -/
def typeChars : Variable → List Char
  | .bool _ => "bool".toList
  | .int ⟨_, _, .interval lower upper _ _⟩ =>
    signedNumeral lower ++ ('.' :: '.' :: signedNumeral upper)
  | .int ⟨_, _, .values members _ _ _⟩ =>
    '\x7b' :: ([','].intercalate (members.map signedNumeral) ++ ['\x7d'])

/-- The type of a variable. -/
def declaredType : Variable → DeclaredType
  | .bool _ => .bool
  | .int ⟨_, _, .interval lower upper _ _⟩ => .range lower upper
  | .int ⟨_, _, .values members _ _ _⟩ => .set members

theorem declaredType_eq_bool_iff (x : Variable) :
    declaredType x = .bool ↔ x.isBoolean = true := by
  rcases x with x | ⟨id, name, _ | _⟩ <;> simp [declaredType, Variable.isBoolean]

/-- The values of the type are those of the domain. -/
theorem admits_declaredType (x : Variable) (v : Int) :
    (declaredType x).Admits v ↔ x.domain.contains v = true := by
  rcases x with x | ⟨id, name, ⟨lower, upper, _, _⟩ | ⟨members, _, _, _⟩⟩
  · simp only [declaredType, DeclaredType.Admits, Variable.domain, Domain.boolean, Domain.contains,
      Bool.and_eq_true, decide_eq_true_eq]
    omega
  · simp [declaredType, DeclaredType.Admits, Variable.domain, Domain.contains]
  · simp [declaredType, DeclaredType.Admits, Variable.domain, Domain.contains]

/-- What begins with a number is read as a range. -/
theorem readType?_range (lower upper : Int) :
    readType? (signedNumeral lower ++ ('.' :: '.' :: signedNumeral upper)) =
      some (.range lower upper) := by
  have hfirst : ∀ c, c.isDigit = false → c ≠ '-' → ∀ rest tail,
      signedNumeral lower ++ rest ≠ c :: tail := by
    intro c hdigit hminus rest tail h
    obtain ⟨first, more, hcons⟩ := List.exists_cons_of_ne_nil (signedNumeral_ne_nil lower)
    rw [hcons] at h
    exact ne_of_mem_signedNumeral hdigit hminus (hcons ▸ List.mem_cons_self) (List.cons.inj h).1
  have hbrace : dropStart? ['\x7b'] (signedNumeral lower ++ ('.' :: '.' :: signedNumeral upper)) =
      none := by
    cases hdrop : dropStart? ['\x7b'] _ with
    | none => rfl
    | some rest =>
        exact absurd (dropStart?_eq_some_iff.mp hdrop) (hfirst _ (by decide) (by decide) _ _)
  have hchunk : ∀ c ∈ signedNumeral lower, (c != '.') = true := fun c hc =>
    bne_iff_ne.mpr (ne_of_mem_signedNumeral (by decide) (by decide) hc)
  have hend : NoneAhead (· != '.') ('.' :: '.' :: signedNumeral upper) := noneAhead_cons (by decide)
  have hpoints : dropStart? ['.', '.'] ('.' :: '.' :: signedNumeral upper) =
      some (signedNumeral upper) := dropStart?_append ['.', '.'] _
  have hbool : signedNumeral lower ++ ('.' :: '.' :: signedNumeral upper) ≠ "bool".toList :=
    hfirst 'b' (by decide) (by decide) _ _
  rw [readType?, if_neg hbool, hbrace]
  simp only [takeWhile_chunk hchunk hend, dropWhile_chunk hchunk hend, hpoints,
    integer?_signedNumeral, Option.map_some]

/-- What stands in braces is read as a set. -/
theorem readType?_set {members : List Int} (hne : members ≠ []) :
    readType? ('\x7b' :: ([','].intercalate (members.map signedNumeral) ++ ['\x7d'])) =
      some (.set members) := by
  have hsplit : ([','].intercalate (members.map signedNumeral)).splitOn ',' =
      members.map signedNumeral := by
    refine List.splitOn_intercalate ',' (fun text htext hcomma => ?_) (by simpa using hne)
    obtain ⟨v, -, rfl⟩ := List.mem_map.mp htext
    exact ne_of_mem_signedNumeral (by decide) (by decide) hcomma rfl
  have hbrace := dropStart?_append ['\x7b']
    ([','].intercalate (members.map signedNumeral) ++ ['\x7d'])
  rw [List.singleton_append] at hbrace
  rw [readType?, if_neg (by simp), hbrace]
  simp only [List.getLast?_concat, if_true, List.dropLast_concat, hsplit,
    mapM_integer?_signedNumeral, Option.map_some]

theorem readType?_typeChars (x : Variable) : readType? (typeChars x) = some (declaredType x) := by
  rcases x with x | ⟨id, name, ⟨lower, upper, _, _⟩ | ⟨members, hne, _, _⟩⟩
  · rw [typeChars, readType?, if_pos rfl]
    rfl
  · exact readType?_range lower upper
  · exact readType?_set hne

/-- No type has a colon. -/
theorem ne_colon_of_mem_typeChars (x : Variable) (hc : c ∈ typeChars x) : c ≠ ':' := by
  have hnumeral : ∀ v, ∀ c ∈ signedNumeral v, c ≠ ':' := fun _ _ =>
    ne_of_mem_signedNumeral (by decide) (by decide)
  rcases x with x | ⟨id, name, ⟨lower, upper, _, _⟩ | ⟨members, _, _, _⟩⟩
  · have hbool : ':' ∉ "bool".toList := by decide
    exact ne_of_mem_of_not_mem hc hbool
  · simp only [typeChars, List.mem_append, List.mem_cons] at hc
    rcases hc with hc | rfl | rfl | hc
    · exact hnumeral lower c hc
    · decide
    · decide
    · exact hnumeral upper c hc
  · simp only [typeChars, List.mem_append, List.mem_cons, List.not_mem_nil, or_false] at hc
    rcases hc with rfl | hc | rfl
    · decide
    · rcases mem_intercalate_comma hc with rfl | ⟨text, htext, hc⟩
      · decide
      · obtain ⟨v, -, rfl⟩ := List.mem_map.mp htext
        exact hnumeral v c hc
    · decide

/-! ## Items -/

/-- The item is the type and the name of the variable, with what is always the same around them. -/
theorem toList_text (d : Declaration) :
    d.text.toList =
      "var ".toList ++ (typeChars d.var ++ (": ".toList ++ (d.name.toList ++ [';']))) := by
  rcases d with ⟨x | ⟨id, name, ⟨lower, upper, _, _⟩ | ⟨members, _, _, _⟩⟩, declared⟩
  · simp [Declaration.text, typeChars]
  · simp [Declaration.text, typeChars, ← toList_toString_int]
  · have hnumbers : members.map (String.toList ∘ toString) = members.map signedNumeral :=
      List.map_congr_left fun v _ => toList_toString_int v
    simp [Declaration.text, typeChars, joined, String.toList_intercalate, hnumbers]

/-- The item of a variable says its name and its domain. -/
theorem declares_text (d : Declaration) : Declares d.text d.name d.var := by
  refine ⟨declaredType d.var, ?_, declaredType_eq_bool_iff d.var, admits_declaredType d.var⟩
  have hchunk : ∀ c ∈ typeChars d.var, (c != ':') = true := fun c hc =>
    bne_iff_ne.mpr (ne_colon_of_mem_typeChars d.var hc)
  have hend : NoneAhead (· != ':') (": ".toList ++ (d.name.toList ++ [';'])) :=
    noneAhead_cons (by decide)
  rw [readDeclaration?, toList_text, dropStart?_append]
  simp only [takeWhile_chunk hchunk hend, dropWhile_chunk hchunk hend, readType?_typeChars,
    dropStart?_append, List.getLast?_concat, if_true, List.dropLast_concat, String.ofList_toList]

end FiniteDomain.MiniZinc
