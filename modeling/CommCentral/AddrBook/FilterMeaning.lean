import CommCentral.AddrBook.BooleanFilter
import CommCentral.Lib.LdapReading

/-! When the filter of a query is well formed and means what the query means. -/
namespace CommCentral.AddrBook

open Lib.LdapFilter List Option

variable {map : AttributeMap}

/-- What the map has for a property is an LDAP attribute. -/
def MapsToAttributes (map : AttributeMap) : Prop :=
  ∀ name, map name ≠ [] → isAttributeDescription (map name) = true

def ConditionType.comparesValue (condition : ConditionType) : Prop :=
  condition ≠ .Exists ∧ condition ≠ .DoesNotExist

/-- Whether anything is written for a query. -/
def Writes (map : AttributeMap) : BooleanExpression → Prop
  | .condition condition => map condition.name ≠ []
  | .expression _ expressions => isCardQuery expressions = false

/-- The values that are written have no parenthesis, asterisk or backslash, and no operation that
is written loses all its operands. -/
inductive Convertible (map : AttributeMap) : BooleanExpression → Prop where
  | condition {condition : Condition}
      (plain : map condition.name ≠ [] → condition.condition.comparesValue →
        ∀ c ∈ condition.value.text, c ∉ ['(', ')', '*', '\\']) :
      Convertible map (.condition condition)
  | card {operation : Operation} {expressions : List BooleanExpression}
      (card : isCardQuery expressions = true) : Convertible map (.expression operation expressions)
  | expression {operation : Operation} {expressions : List BooleanExpression}
      (inside : ∀ expression ∈ expressions, Convertible map expression)
      (written : ∃ expression ∈ expressions, Writes map expression) :
      Convertible map (.expression operation expressions)

/-- No part of a query is left out. -/
inductive Complete (map : AttributeMap) : BooleanExpression → Prop where
  | condition {condition : Condition} (mapped : map condition.name ≠ []) :
      Complete map (.condition condition)
  | expression {operation : Operation} {expressions : List BooleanExpression}
      (noCard : isCardQuery expressions = false)
      (inside : ∀ expression ∈ expressions, Complete map expression) :
      Complete map (.expression operation expressions)

lemma toNat_ofNat (valid : n.isValidChar) : (Char.ofNat n).toNat = n := by
  rw [Char.ofNat, dif_pos valid]
  rfl

lemma ofNat_ne_nul (valid : n.isValidChar) (some_ : n ≠ 0) : Char.ofNat n ≠ '\x00' := by
  intro nul
  apply some_
  rw [← toNat_ofNat valid, nul]
  rfl

lemma nul_not_mem_decodeUTF16 (noNul : 0 ∉ units) : '\x00' ∉ decodeUTF16 units := by
  fun_induction decodeUTF16 units with
  | case1 => exact not_mem_nil
  | case2 unit rest scalar ih =>
    obtain ⟨first, later⟩ := ne_and_not_mem_of_not_mem_cons noNul
    rw [UInt16.lt_iff_toNat_lt, UInt16.le_iff_toNat_le] at scalar
    have bound := unit.toNat_lt
    have valid : unit.toNat.isValidChar := by
      unfold Nat.isValidChar
      simp only [UInt16.reduceToNat] at scalar
      omega
    have some_ : unit.toNat ≠ 0 := fun zero => first (UInt16.toNat_inj.mp zero.symm)
    exact not_mem_cons_of_ne_of_not_mem (ofNat_ne_nul valid some_).symm (ih later)
  | case3 unit _ => exact not_mem_cons_of_ne_of_not_mem (by decide) not_mem_nil
  | case4 unit _ low rest pair ih =>
    obtain ⟨_, later⟩ := ne_and_not_mem_of_not_mem_cons
      (ne_and_not_mem_of_not_mem_cons noNul).2
    have boundHigh := unit.toNat_lt
    have boundLow := low.toNat_lt
    simp only [UInt16.lt_iff_toNat_lt, UInt16.le_iff_toNat_le, UInt16.reduceToNat] at pair
    refine not_mem_cons_of_ne_of_not_mem (ofNat_ne_nul ?_ ?_).symm (ih later)
    · unfold Nat.isValidChar
      omega
    · omega
  | case5 unit _ low rest _ ih =>
    exact not_mem_cons_of_ne_of_not_mem (by decide)
      (ih (ne_and_not_mem_of_not_mem_cons noNul).2)

lemma isPlain_of_noMetacharacters {value : WString}
    (plain : ∀ c ∈ value.text, c ∉ ['(', ')', '*', '\\']) : IsPlain value.text := by
  intro c mem
  have noNul : c ≠ '\x00' := by
    intro nul
    exact nul_not_mem_decodeUTF16 value.noNul (nul ▸ mem)
  have special := plain c mem
  simp only [mem_cons, not_or] at special
  simp [isSpecial, noNul, special]

def literalCondition (map : AttributeMap) (condition : Condition) : Filter :=
  let attr := map condition.name
  let value := condition.literalValue
  match condition.condition with
  | .Exists => .item (.present attr)
  | .DoesNotExist => .not (.item (.present attr))
  | .Contains => .item (.substrings attr none [value] none)
  | .DoesNotContain => .not (.item (.substrings attr none [value] none))
  | .Is => .item (.compare .equal attr value)
  | .IsNot => .not (.item (.compare .equal attr value))
  | .BeginsWith =>
    if value = [] then .item (.present attr) else .item (.substrings attr (some value) [] none)
  | .EndsWith =>
    if value = [] then .item (.present attr) else .item (.substrings attr none [] (some value))
  | .LessThan => .item (.compare .lessOrEqual attr value)
  | .GreaterThan => .item (.compare .greaterOrEqual attr value)
  | .SoundsLike => .item (.compare .approx attr value)
  -- Not a filter's item: no query has it.
  | .RegExp => .or []

mutual

def literal (map : AttributeMap) : BooleanExpression → Filter
  | .condition condition => literalCondition map condition
  | .expression .AND expressions => .and (literals map expressions)
  | .expression .OR expressions => .or (literals map expressions)
  | .expression .NOT expressions => .not ((literals map expressions).headD (.and []))

def literals (map : AttributeMap) : List BooleanExpression → List Filter
  | [] => []
  | expression :: expressions => literal map expression :: literals map expressions

end

/-- Some value begins with nothing exactly when there is a value. -/
theorem any_true (values : List Value) : (!values.isEmpty) = values.any fun _ => true := by
  cases values <;> rfl

variable (rules : MatchingRules)

lemma literalCondition_holds (entry) (noRegExp : condition.condition ≠ .RegExp) :
    (literalCondition map condition).holds rules entry = condition.holds map rules entry := by
  unfold literalCondition Condition.holds
  cases kind : condition.condition with
  | RegExp => exact absurd kind noRegExp
  | BeginsWith =>
    dsimp only
    split
    · rename_i nothing
      rw [nothing, funext (rules.initial_nil _)]
      exact any_true _
    · rfl
  | EndsWith =>
    dsimp only
    split
    · rename_i nothing
      rw [nothing, funext (rules.final_nil _)]
      exact any_true _
    · rfl
  | DoesNotExist => simp [Filter.holds, Assertion.holds]
  | _ => rfl

/-- The literal filter is the same boolean function of the conditions. -/
theorem literal_holds (entry : Entry) (wellFormed : Query query) :
    (literal map query).holds rules entry = query.holds map rules entry := by
  induction wellFormed with
  | condition noRegExp => exact literalCondition_holds rules entry noRegExp
  | @expression operation expressions some_ one inside ih =>
    have all : allHold rules entry (literals map expressions) =
        everyHolds map rules entry expressions := by
      clear some_ one inside
      induction expressions with
      | nil => rfl
      | cons expression expressions later =>
        obtain ⟨here, ih⟩ := forall_mem_cons.mp ih
        rw [literals, allHold, everyHolds, here, later ih]
    have any : anyHolds rules entry (literals map expressions) =
        someHolds map rules entry expressions := by
      clear some_ one inside all
      induction expressions with
      | nil => rfl
      | cons expression expressions later =>
        obtain ⟨here, ih⟩ := forall_mem_cons.mp ih
        rw [literals, anyHolds, someHolds, here, later ih]
    cases operation with
    | AND => exact all
    | OR => exact any
    | NOT =>
      obtain ⟨expression, rfl⟩ := length_eq_one_iff.mp (one rfl)
      rw [literals, literals, allHold, allHold, Bool.and_true] at all
      exact congrArg (!·) all

lemma encodeText_eq_nil_iff (text : Text) : encodeText text = [] ↔ text = [] := by
  cases text with
  | nil => exact iff_of_true rfl rfl
  | cons c text =>
    simp only [encodeText, flatMap_cons, append_eq_nil_iff, reduceCtorEq, iff_false]
    exact fun nothing => String.utf8EncodeChar_ne_nil nothing.1

lemma reads_item {whole text : Text}
    (read : readItem text = some assertion) (closed : ')' ∉ text)
    (same : whole = '(' :: (text ++ [')'])) : Reads whole (.item assertion) := by
  rw [same]
  exact .item read closed

lemma reads_notItem {whole text : Text}
    (read : readItem text = some assertion) (closed : ')' ∉ text)
    (same : whole = '(' :: '!' :: '(' :: (text ++ [')', ')'])) :
    Reads whole (.not (.item assertion)) := by
  have whole_ : whole = '(' :: '!' :: (('(' :: (text ++ [')'])) ++ [')']) := by
    rw [same]
    simp only [cons_append, append_assoc, nil_append]
  rw [whole_]
  exact .not (.item read closed)

lemma parenthesis_not_mem (named : isAttributeDescription attr = true)
    (closed : ')' ∉ later) : ')' ∉ attr ++ later := by
  intro mem
  rcases mem_append.mp mem with mem | mem
  · exact absurd (isAttributeDescription_chars named ')' mem) (by decide)
  · exact closed mem

lemma literalCondition_reads (attributes : MapsToAttributes map)
    (mapped : map condition.name ≠ []) (noRegExp : condition.condition ≠ .RegExp) (plain :
      condition.condition.comparesValue → ∀ c ∈ condition.value.text, c ∉ ['(', ')', '*', '\\']) :
    Reads (filterCondition map translateOnly condition) (literalCondition map condition) := by
  have named := attributes condition.name mapped
  have some_ : (map condition.name).isEmpty = false := by simpa using mapped
  unfold filterCondition literalCondition
  simp only [translateOnly, if_true, some_, Bool.and_false, Bool.false_eq_true, if_false]
  have compares : condition.condition ≠ .Exists → condition.condition ≠ .DoesNotExist →
      IsPlain condition.value.text := fun one two =>
    isPlain_of_noMetacharacters (plain ⟨one, two⟩)
  cases kind : condition.condition with
  | RegExp => exact absurd kind noRegExp
  | Exists =>
    apply reads_item (readItem_present named) (parenthesis_not_mem named (by decide))
    simp only [append_assoc, cons_append, nil_append]
  | DoesNotExist =>
    apply reads_notItem (readItem_present named) (parenthesis_not_mem named (by decide))
    simp only [append_assoc, cons_append, nil_append]
  | Contains =>
    have plain := compares (by rw [kind]; decide) (by rw [kind]; decide)
    apply reads_item (readItem_contains named plain) (parenthesis_not_mem named _)
    · simp only [append_assoc, cons_append, nil_append]
    · simp [plain.parenthesis]
  | DoesNotContain =>
    have plain := compares (by rw [kind]; decide) (by rw [kind]; decide)
    apply reads_notItem (readItem_contains named plain) (parenthesis_not_mem named _)
    · simp only [append_assoc, cons_append, nil_append]
    · simp [plain.parenthesis]
  | Is =>
    have plain := compares (by rw [kind]; decide) (by rw [kind]; decide)
    apply reads_item (readItem_comparison named plain).1 (parenthesis_not_mem named _)
    · simp only [append_assoc, cons_append]
    · simp [plain.parenthesis]
  | IsNot =>
    have plain := compares (by rw [kind]; decide) (by rw [kind]; decide)
    apply reads_notItem (readItem_comparison named plain).1 (parenthesis_not_mem named _)
    · simp only [append_assoc, cons_append]
    · simp [plain.parenthesis]
  | BeginsWith =>
    have plain := compares (by rw [kind]; decide) (by rw [kind]; decide)
    dsimp only
    split
    · rename_i nothing
      rw [(encodeText_eq_nil_iff _).mp nothing]
      apply reads_item (readItem_present named) (parenthesis_not_mem named (by decide))
      simp only [append_assoc, cons_append, nil_append]
    · rename_i some_
      have some_ : condition.value.text ≠ [] := fun nothing =>
        some_ ((encodeText_eq_nil_iff _).mpr nothing)
      apply reads_item (readItem_begins named plain some_) (parenthesis_not_mem named _)
      · simp only [append_assoc, cons_append, nil_append]
      · simp [plain.parenthesis]
  | EndsWith =>
    have plain := compares (by rw [kind]; decide) (by rw [kind]; decide)
    dsimp only
    split
    · rename_i nothing
      rw [(encodeText_eq_nil_iff _).mp nothing]
      apply reads_item (readItem_present named) (parenthesis_not_mem named (by decide))
      simp only [append_assoc, cons_append, nil_append]
    · rename_i some_
      have some_ : condition.value.text ≠ [] := fun nothing =>
        some_ ((encodeText_eq_nil_iff _).mpr nothing)
      apply reads_item (readItem_ends named plain some_) (parenthesis_not_mem named _)
      · simp only [append_assoc, cons_append]
      · simp [plain.parenthesis]
  | LessThan =>
    have plain := compares (by rw [kind]; decide) (by rw [kind]; decide)
    apply reads_item (readItem_comparison named plain).2.2.2 (parenthesis_not_mem named _)
    · simp only [append_assoc, cons_append]
    · simp [plain.parenthesis]
  | GreaterThan =>
    have plain := compares (by rw [kind]; decide) (by rw [kind]; decide)
    apply reads_item (readItem_comparison named plain).2.2.1 (parenthesis_not_mem named _)
    · simp only [append_assoc, cons_append]
    · simp [plain.parenthesis]
  | SoundsLike =>
    have plain := compares (by rw [kind]; decide) (by rw [kind]; decide)
    apply reads_item (readItem_comparison named plain).2.1 (parenthesis_not_mem named _)
    · simp only [append_assoc, cons_append]
    · simp [plain.parenthesis]

structure Written (map : AttributeMap) (query : BooleanExpression) (text : Text) : Prop where
  nothing : ¬ Writes map query → text = []
  filter : Writes map query →
    ∃ filter, Reads text filter ∧ (Complete map query → filter = literal map query)

lemma Complete.writes (complete : Complete map query) : Writes map query := by
  cases complete with
  | condition mapped => exact mapped
  | expression noCard _ => exact noCard

lemma filterExpression_leftOut (card : isCardQuery expressions = true) :
    filterExpression map translateOnly (.expression operation expressions) = some [] := by
  cases operation <;> rw [filterExpression, if_pos card, ite_self]

lemma filterExpressions_spec
    (each : ∀ expression ∈ expressions, ∃ text,
      filterExpression map translateOnly expression = some text ∧ Written map expression text) :
    ∃ text, filterExpressions map translateOnly expressions = some text ∧
      ((∀ expression ∈ expressions, ¬ Writes map expression) → text = []) ∧
      ((∃ expression ∈ expressions, Writes map expression) →
        ∃ filters, ReadsList text filters ∧
          ((∀ expression ∈ expressions, Complete map expression) →
            filters = literals map expressions)) := by
  induction expressions with
  | nil => exact ⟨[], rfl, fun _ => rfl, nofun⟩
  | cons expression expressions ih =>
    obtain ⟨⟨text, wrote, here⟩, each⟩ := forall_mem_cons.mp each
    obtain ⟨later, wroteLater, nothing, filters⟩ := ih each
    refine ⟨text ++ later, ?_, ?_, ?_⟩
    · rw [filterExpressions, wrote, wroteLater]
      rfl
    · intro none
      obtain ⟨noneHere, noneLater⟩ := forall_mem_cons.mp none
      rw [here.nothing noneHere, nothing noneLater]
      rfl
    · intro written
      by_cases writesHere : Writes map expression
      · obtain ⟨filter, reads, same⟩ := here.filter writesHere
        by_cases writesLater : ∃ expression ∈ expressions, Writes map expression
        · obtain ⟨filters, readsLater, sameLater⟩ := filters writesLater
          refine ⟨filter :: filters, .cons reads readsLater, ?_⟩
          intro complete
          obtain ⟨completeHere, completeLater⟩ := forall_mem_cons.mp complete
          rw [literals, same completeHere, sameLater completeLater]
        · have noneLater : ∀ expression ∈ expressions, ¬ Writes map expression :=
            fun expression mem writes => writesLater ⟨expression, mem, writes⟩
          rw [nothing noneLater, append_nil]
          refine ⟨[filter], .one reads, ?_⟩
          intro complete
          obtain ⟨completeHere, completeLater⟩ := forall_mem_cons.mp complete
          have empty : expressions = [] := by
            apply eq_nil_iff_forall_not_mem.mpr
            exact fun expression mem =>
              noneLater expression mem (completeLater expression mem).writes
          rw [same completeHere, empty]
          rfl
      · have writesLater : ∃ expression ∈ expressions, Writes map expression := by
          obtain ⟨expression, mem, writes⟩ := written
          rcases mem_cons.mp mem with rfl | mem
          · exact absurd writes writesHere
          · exact ⟨expression, mem, writes⟩
        obtain ⟨filters, readsLater, sameLater⟩ := filters writesLater
        rw [here.nothing writesHere]
        refine ⟨filters, readsLater, ?_⟩
        intro complete
        exact absurd (complete expression mem_cons_self).writes writesHere

lemma filterExpression_spec (attributes : MapsToAttributes map)
    (convertible : Convertible map query) (wellFormed : Query query) :
    ∃ text, filterExpression map translateOnly query = some text ∧ Written map query text := by
  induction convertible with
  | @condition condition plain =>
    cases wellFormed with
    | condition noRegExp =>
      refine ⟨_, rfl, ?_, ?_⟩
      · intro unmapped
        have unmapped : map condition.name = [] := not_not.mp unmapped
        simp [filterCondition, translateOnly, unmapped]
      · intro mapped
        exact ⟨_, literalCondition_reads attributes mapped noRegExp (plain mapped), fun _ => rfl⟩
  | @card operation expressions card =>
    refine ⟨[], filterExpression_leftOut card, fun _ => rfl, ?_⟩
    intro noCard
    exact absurd (card.symm.trans noCard) (by decide)
  | @expression operation expressions inside written ih =>
    cases wellFormed with
    | expression some_ one insideQuery =>
    by_cases card : isCardQuery expressions = true
    · refine ⟨[], filterExpression_leftOut card, fun _ => rfl, ?_⟩
      intro noCard
      exact absurd (card.symm.trans noCard) (by decide)
    · have each : ∀ expression ∈ expressions, ∃ text,
          filterExpression map translateOnly expression = some text ∧
            Written map expression text :=
        fun expression mem => ih expression mem (insideQuery expression mem)
      obtain ⟨text, wrote, _, filters⟩ := filterExpressions_spec each
      obtain ⟨filters, reads, same⟩ := filters written
      have kept : expressions.isEmpty = false := by simpa using some_
      have notLeftOut : ¬ ¬ Writes map (.expression operation expressions) :=
        not_not_intro (Bool.eq_false_iff.mpr card)
      have complete : Complete map (.expression operation expressions) →
          ∀ expression ∈ expressions, Complete map expression := by
        intro complete
        cases complete with
        | expression _ inside => exact inside
      cases operation with
      | AND =>
        rw [filterExpression, kept, if_neg Bool.false_ne_true, if_neg card, wrote]
        refine ⟨_, rfl, fun leftOut => absurd leftOut notLeftOut, ?_⟩
        intro _
        exact ⟨_, .and reads, fun all => by rw [literal, same (complete all)]⟩
      | OR =>
        rw [filterExpression, kept, if_neg Bool.false_ne_true, if_neg card, wrote]
        refine ⟨_, rfl, fun leftOut => absurd leftOut notLeftOut, ?_⟩
        intro _
        exact ⟨_, .or reads, fun all => by rw [literal, same (complete all)]⟩
      | NOT =>
        obtain ⟨expression, rfl⟩ := length_eq_one_iff.mp (one rfl)
        obtain ⟨inner, wroteInner, here⟩ := each expression mem_cons_self
        obtain ⟨_, mem, writes⟩ := written
        cases mem_singleton.mp mem
        obtain ⟨filter, reads, same⟩ := here.filter writes
        have wrote : filterExpressions map translateOnly [expression] = some inner := by
          rw [filterExpressions, wroteInner, filterExpressions]
          exact congrArg some (append_nil inner)
        have single : ¬ [expression].length > 1 := Nat.lt_irrefl 1
        rw [filterExpression, kept, if_neg Bool.false_ne_true, if_neg card, if_neg single, wrote]
        refine ⟨_, rfl, fun leftOut => absurd leftOut notLeftOut, ?_⟩
        intro _
        refine ⟨_, .not reads, ?_⟩
        intro all
        rw [literal, literals, same (complete all expression mem_cons_self)]
        rfl

lemma countP_eq_zero_of_weight {text : Text} (none : text.countP isSpecial = 0) :
    ∀ c ∈ text, c ∉ ['(', ')', '*', '\\'] := by
  intro c mem special
  have notSpecial := countP_eq_zero.mp none c mem
  apply notSpecial
  simp only [mem_cons, not_mem_nil, or_false] at special
  rcases special with rfl | rfl | rfl | rfl <;> decide

lemma literalCondition_weight (mapped : map condition.name ≠ [])
    (noRegExp : condition.condition ≠ .RegExp) :
    (filterCondition map translateOnly condition).length ≤
        (literalCondition map condition).weight ∧
      ((filterCondition map translateOnly condition).length =
          (literalCondition map condition).weight →
        condition.condition.comparesValue → condition.value.text.countP isSpecial = 0) := by
  have some_ : (map condition.name).isEmpty = false := by simpa using mapped
  have weight : valueWeight condition.literalValue = condition.value.text.length +
      2 * condition.value.text.countP isSpecial := valueWeight_encodeText _
  unfold filterCondition literalCondition
  simp only [translateOnly, if_true, some_, Bool.and_false, Bool.false_eq_true, if_false]
  cases kind : condition.condition with
  | RegExp => exact absurd kind noRegExp
  | Exists =>
    simp only [Filter.weight, Assertion.weight, length_cons, length_append,
      length_nil]
    exact ⟨by omega, fun _ compares => absurd rfl compares.1⟩
  | DoesNotExist =>
    simp only [Filter.weight, Assertion.weight, length_cons, length_append,
      length_nil]
    exact ⟨by omega, fun _ compares => absurd rfl compares.2⟩
  | BeginsWith | EndsWith =>
    dsimp only
    split
    · rename_i nothing
      rw [(encodeText_eq_nil_iff _).mp nothing]
      exact ⟨by simp [Filter.weight, Assertion.weight]; omega, fun _ _ => rfl⟩
    · simp only [Filter.weight, Assertion.weight, length_cons, length_append,
        length_nil, Option.elim, map_nil, sum_nil, weight]
      omega
  | _ =>
    simp only [Filter.weight, Assertion.weight, length_cons, length_append,
      length_nil, Option.elim, map_cons, map_nil, sum_cons, sum_nil,
      weight]
    omega

/-- A text is no longer than the filter weighs, and as long only if nothing was lost. -/
structure Spent (map : AttributeMap) (query : BooleanExpression) (text : Text) : Prop where
  length_le : text.length ≤ (literal map query).weight
  exact_ : text.length = (literal map query).weight → Convertible map query ∧ Complete map query

lemma filterExpressions_spent
    (each : ∀ expression ∈ expressions, ∀ text,
      filterExpression map translateOnly expression = some text → Spent map expression text)
    {text : Text} (wrote : filterExpressions map translateOnly expressions = some text) :
    text.length ≤ weights (literals map expressions) ∧
      (text.length = weights (literals map expressions) →
        ∀ expression ∈ expressions, Convertible map expression ∧ Complete map expression) := by
  induction expressions generalizing text with
  | nil =>
    cases wrote
    exact ⟨Nat.le_refl 0, fun _ => nofun⟩
  | cons expression expressions ih =>
    obtain ⟨here, each⟩ := forall_mem_cons.mp each
    rw [filterExpressions] at wrote
    cases first : filterExpression map translateOnly expression with
    | none =>
      rw [first] at wrote
      cases wrote
    | some inner =>
      rw [first] at wrote
      obtain ⟨later, wroteLater, rfl⟩ := map_eq_some_iff.mp wrote
      obtain ⟨length_le, exactLater⟩ := ih each wroteLater
      have spent := here inner first
      have spentLe := spent.length_le
      rw [literals, weights, length_append]
      refine ⟨Nat.add_le_add spentLe length_le, ?_⟩
      intro same
      rw [forall_mem_cons]
      exact ⟨spent.exact_ (by omega), exactLater (by omega)⟩

lemma spent_leftOut : Spent map (.expression operation expressions) [] := by
  have positive : 0 < (literal map (.expression operation expressions)).weight := by
    cases operation <;> simp only [literal, Filter.weight] <;> omega
  exact ⟨Nat.zero_le _, fun same => absurd same (Nat.ne_of_lt positive)⟩

lemma filterExpression_spent (wellFormed : Query query) (allMapped : AllMapped map query)
    {text : Text} (wrote : filterExpression map translateOnly query = some text) :
    Spent map query text := by
  induction wellFormed generalizing text with
  | @condition condition noRegExp =>
    cases allMapped with
    | condition mapped =>
    cases wrote
    obtain ⟨length_le, plain⟩ := literalCondition_weight mapped noRegExp
    refine ⟨length_le, fun same => ⟨.condition ?_, .condition mapped⟩⟩
    exact fun _ compares => countP_eq_zero_of_weight (plain same compares)
  | @expression operation expressions some_ one inside ih =>
    cases allMapped with
    | expression mapped =>
    have each : ∀ expression ∈ expressions, ∀ text,
        filterExpression map translateOnly expression = some text → Spent map expression text :=
      fun expression mem _ wrote => ih expression mem (mapped expression mem) wrote
    by_cases card : isCardQuery expressions = true
    · rw [filterExpression_leftOut card] at wrote
      cases wrote
      exact spent_leftOut
    · have kept : expressions.isEmpty = false := by simpa using some_
      have whole : (∀ expression ∈ expressions,
          Convertible map expression ∧ Complete map expression) →
          Convertible map (.expression operation expressions) ∧
            Complete map (.expression operation expressions) := by
        intro all
        obtain ⟨expression, mem⟩ := exists_mem_of_ne_nil expressions some_
        refine ⟨.expression (fun expression mem => (all expression mem).1) ?_, ?_⟩
        · exact ⟨expression, mem, (all expression mem).2.writes⟩
        · exact .expression (Bool.eq_false_iff.mpr card)
            fun expression mem => (all expression mem).2
      cases operation with
      | AND | OR =>
        rw [filterExpression, kept, if_neg Bool.false_ne_true, if_neg card] at wrote
        obtain ⟨inner, wroteInner, rfl⟩ := map_eq_some_iff.mp wrote
        obtain ⟨length_le, exact_⟩ := filterExpressions_spent each wroteInner
        constructor
        · simp only [literal, Filter.weight, length_cons, length_append, length_nil]
          omega
        · simp only [literal, Filter.weight, length_cons, length_append, length_nil]
          exact fun same => whole (exact_ (by omega))
      | NOT =>
        obtain ⟨expression, rfl⟩ := length_eq_one_iff.mp (one rfl)
        have single : ¬ [expression].length > 1 := Nat.lt_irrefl 1
        rw [filterExpression, kept, if_neg Bool.false_ne_true, if_neg card, if_neg single] at wrote
        obtain ⟨inner, wroteInner, rfl⟩ := map_eq_some_iff.mp wrote
        obtain ⟨length_le, exact_⟩ := filterExpressions_spent each wroteInner
        simp only [literals, weights, Nat.add_zero] at length_le exact_
        constructor
        · simp only [literal, literals, headD_cons, Filter.weight, length_cons,
            length_append, length_nil]
          omega
        · simp only [literal, literals, headD_cons, Filter.weight, length_cons,
            length_append, length_nil]
          exact fun same => whole (exact_ (by omega))

/-- The values that are written have no characters that filters are made of, no operation that is
written loses all its operands, and a query whose properties all have attributes has no condition
on whole cards that is left out. -/
structure Faithful (map : AttributeMap) (query : BooleanExpression) : Prop where
  convertible : Convertible map query
  writes : Writes map query
  complete : AllMapped map query → Complete map query

/-- The text is a filter in one way, which means what the query means when every property has an
attribute. -/
def ConvertsTo (map : AttributeMap) (query : BooleanExpression) (text : Text) : Prop :=
  ∃ filter, Reads text filter ∧ (∀ other, Reads text other → other = filter) ∧
    (AllMapped map query → ∀ rules entry,
      filter.holds rules entry = query.holds map rules entry)

/-- The text of a faithful query is a filter with its meaning. Where every property has an
attribute, it is the text of the query's literal filter for these queries only. -/
theorem convert_means (attributes : MapsToAttributes map) {operation : Operation}
    {expressions : List BooleanExpression} (wellFormed : Query (.expression operation expressions)) :
    (Faithful map (.expression operation expressions) →
        ∃ text, convert map translateOnly operation expressions = some text ∧
          ConvertsTo map (.expression operation expressions) text) ∧
      (AllMapped map (.expression operation expressions) → ∀ text,
        convert map translateOnly operation expressions = some text →
          (Reads text (literal map (.expression operation expressions)) ↔
            Faithful map (.expression operation expressions))) := by
  constructor
  · intro faithful
    obtain ⟨text, wrote, written⟩ :=
      filterExpression_spec attributes faithful.convertible wellFormed
    obtain ⟨filter, reads, same⟩ := written.filter faithful.writes
    refine ⟨text, wrote, filter, reads, ?_, ?_⟩
    · intro other readsOther
      exact readsOther.eq reads
    · intro allMapped rules entry
      rw [same (faithful.complete allMapped)]
      exact literal_holds rules entry wellFormed
  · intro allMapped text wrote
    have spent := filterExpression_spent wellFormed allMapped wrote
    constructor
    · intro reads
      obtain ⟨convertible, complete⟩ :=
        spent.exact_ (Nat.le_antisymm spent.length_le reads.weight_le)
      exact ⟨convertible, complete.writes, fun _ => complete⟩
    · intro faithful
      obtain ⟨text', wrote', written⟩ :=
        filterExpression_spec attributes faithful.convertible wellFormed
      obtain ⟨filter, reads, same⟩ := written.filter faithful.writes
      cases wrote.symm.trans wrote'
      exact same (faithful.complete allMapped) ▸ reads

/-- A map with attributes for the display name and the first address. -/
def nameAndMail : AttributeMap := fun name =>
  if name = "DisplayName".toList then ['c', 'n']
  else if name = "PrimaryEmail".toList then ['m', 'a', 'i', 'l']
  else []

lemma nameAndMail_attributes : MapsToAttributes nameAndMail := by
  intro name mapped
  unfold nameAndMail at mapped ⊢
  split
  · decide +kernel
  · split
    · decide +kernel
    · rename_i noName noMail
      rw [if_neg noName, if_neg noMail] at mapped
      exact absurd rfl mapped

/-- No address, or a display name with `x` in it. -/
def unreachableOrX : List BooleanExpression :=
  [.expression .NOT [.condition ⟨.Exists, "PrimaryEmail".toList, ⟨[], by decide⟩⟩],
    .condition ⟨.Contains, "DisplayName".toList, ⟨[0x78], by decide⟩⟩]

theorem convert_means_unreachableOrX :
    ∃ text, convert nameAndMail translateOnly .OR unreachableOrX = some text ∧
      ConvertsTo nameAndMail (.expression .OR unreachableOrX) text := by
  have wellFormed : Query (.expression .OR unreachableOrX) := by
    refine .expression (cons_ne_nil _ _) nofun ?_
    rw [unreachableOrX, forall_mem_cons, forall_mem_singleton]
    refine ⟨.expression (cons_ne_nil _ _) (fun _ => rfl) ?_, .condition (by decide)⟩
    rw [forall_mem_singleton]
    exact .condition (by decide)
  refine (convert_means nameAndMail_attributes wellFormed).1 ⟨?_, rfl, ?_⟩
  · refine .expression ?_ ⟨_, mem_cons_self, rfl⟩
    rw [unreachableOrX, forall_mem_cons, forall_mem_singleton]
    refine ⟨.expression ?_ ⟨_, mem_cons_self, ?_⟩, .condition fun _ _ => by decide +kernel⟩
    · rw [forall_mem_singleton]
      exact .condition fun _ compares => absurd rfl compares.1
    · change nameAndMail _ ≠ []
      decide +kernel
  · intro _
    refine .expression rfl ?_
    rw [unreachableOrX, forall_mem_cons, forall_mem_singleton]
    refine ⟨.expression (by decide +kernel) ?_, .condition (by decide +kernel)⟩
    rw [forall_mem_singleton]
    exact .condition (by decide +kernel)

/-- A query for a property without an attribute becomes `(|)`. -/
theorem convert_unmapped :
    ¬ ∀ (map : AttributeMap) (operation : Operation) (expressions : List BooleanExpression),
      MapsToAttributes map → Query (.expression operation expressions) →
        ∃ text, convert map translateOnly operation expressions = some text ∧
          ConvertsTo map (.expression operation expressions) text := by
  intro converts
  obtain ⟨text, wrote, filter, reads, _⟩ :=
    converts nameAndMail .OR [.condition ⟨.Is, "_JabberId".toList, ⟨[0x78], by decide⟩⟩]
      nameAndMail_attributes
      (.expression (cons_ne_nil _ _) nofun
        (forall_mem_singleton.mpr (.condition (by decide))))
  have empty : convert nameAndMail translateOnly .OR
      [.condition ⟨.Is, "_JabberId".toList, ⟨[0x78], by decide⟩⟩] = some ['(', '|', ')'] := by
    decide +kernel
  cases wrote.symm.trans empty
  exact not_reads_emptyOr reads

end CommCentral.AddrBook
