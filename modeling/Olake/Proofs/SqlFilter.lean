/-
The WHERE clause of a filter against the filter on change records.

Both go through the conditions one by one, and both join them by `AND` or `OR`.  Unknown
counts as not selected, and for these two connectives that is as good as false
(`Truth.and_eq_true`, `Truth.or_eq_true`), so the three-valued logic itself makes no
difference: a row is treated alike unless a single condition is decided differently (`Slip`).
That is so for a null in the column where the condition asks for another value, and for a null
in the condition that is read as a time.  A slip matters if the other conditions leave the
decision to it (`Settled`).
-/
import Olake.Model.SqlFilter
import Olake.Proofs.Reformat

namespace Olake.SqlFilter

open Typeutils Sql Strings List Option

/-! ### Joining conditions -/

section Combine

variable {α : Type}

/-- Conditions joined by `OR` (true) or `AND`. -/
def combine (or : Bool) (p : α → Bool) (l : List α) : Bool := if or then l.any p else l.all p

theorem combine_eq (or : Bool) (p : α → Bool) (l : List α) :
    combine or p l = or ↔ ∃ a ∈ l, p a = or := by
  cases or <;> simp [combine]

/-- Two ways of deciding conditions agree on the whole exactly if they agree on each, or one on
which they agree settles it, or their differences go both ways. -/
theorem combine_agree_iff (or : Bool) (p q : α → Bool) (l : List α) :
    combine or p l = combine or q l ↔ (∀ a ∈ l, p a = q a) ∨ (∃ a ∈ l, p a = q a ∧ p a = or) ∨
      (∃ a ∈ l, p a ≠ q a ∧ p a = true) ∧ ∃ a ∈ l, p a ≠ q a ∧ p a = false := by
  have hcongr : combine or p l = combine or q l ↔ ((∃ a ∈ l, p a = or) ↔ ∃ a ∈ l, q a = or) := by
    rw [← combine_eq, ← combine_eq]
    cases or <;> cases combine _ p l <;> cases combine _ q l <;> simp
  rw [hcongr]
  constructor
  · intro h
    by_cases hany : ∃ a ∈ l, p a = or
    · -- each of the two settles it somewhere, at one place or at two
      obtain ⟨b, hb, hqb⟩ := h.1 hany
      obtain ⟨a, ha, hpa⟩ := hany
      grind
    · refine .inl fun a ha => ?_
      have hpa : p a = !or := Bool.eq_not_of_ne fun hpa => hany ⟨a, ha, hpa⟩
      exact hpa.trans (Bool.eq_not_of_ne fun hqa => hany (h.2 ⟨a, ha, hqa⟩)).symm
  · grind

end Combine

/-! ### Connectives -/

theorem toLower_of_isSpace (h : isSpace c = true) : c.toLower = c := by
  unfold Char.toLower
  split
  · next hupper =>
    have hge : 65 ≤ c.toNat := by simpa [UInt32.le_iff_toNat_le] using hupper.1
    have hle : c.toNat ≤ 90 := by simpa [UInt32.le_iff_toNat_le] using hupper.2
    simp [isSpace] at h
    omega
  · rfl

theorem lower_of_connective {or : Bool} (h : connective text = some or) :
    text.toList.map Char.toLower = if or then ['o', 'r'] else ['a', 'n', 'd'] := by
  simp only [connective] at h
  split at h
  · next heq =>
    cases h
    exact heq
  · split at h
    · next heq =>
      cases h
      exact heq
    · cases h

/-- The in-process filter reads a connective as the database does. -/
theorem isOr_of_connective {or : Bool} (h : connective text = some or) : isOr text = or := by
  have hlower := lower_of_connective h
  have hblank : ∀ c ∈ text.toList, isSpace c = false := by
    intro c hc
    cases hspace : isSpace c with
    | false => rfl
    | true =>
      have hmem : c ∈ text.toList.map Char.toLower := mem_map.2 ⟨c, hc, toLower_of_isSpace hspace⟩
      have hnone : ∀ c ∈ if or then ['o', 'r'] else ['a', 'n', 'd'], isSpace c = false := by
        cases or <;> exact List.forall_iff_forall_mem.1 (by decide)
      exact hspace.symm.trans (hnone c (hlower ▸ hmem))
  simp only [isOr, trimSpace, trimFunc_of_forall hblank, hlower]
  cases or <;> rfl

/-! ### Single conditions -/

section Conditions

variable {V : Type} (times : Times) (value : V → FilterValue) (driver : Jdbc.DriverType) (db : Database V)
  (vals : Values V) (schema : Schema) (resolve : String → String) (row : String → Option V)

/-- The literal that a condition's value is printed as. -/
def literal (w : V) : Literal := formatValue times driver (value w)

/-- The condition of the clause is true at the row. -/
def selects (c : FilterCondition V) : Bool :=
  match buildCondition times value driver c with
  | .ok k => decide (k.eval db row = some (some true))
  | .error _ => false

/-- The condition holds for the record of the row. -/
def keeps (c : FilterCondition V) : Bool :=
  match parseCondition vals schema resolve c with
  | .ok p => decide (evaluate vals (row c.column) p.value p.operator = some true)
  | .error _ => false

/-- The condition is decided differently, by what the filter says and by what it is read as. -/
def Slip (c : FilterCondition V) (parsed : Option V) : Prop :=
  match c.value, parsed, row c.column with
  -- a null in the column, and the condition asks for another value
  | some _, some _, none => c.operator = .ne
  -- an operator of the database that the evaluator does not have
  | some w, some _, some a => ∃ text holds ord, c.operator = .other text ∧ db.operator text = some holds ∧
      db.compare c.column a (literal times value driver w) = some ord ∧ holds ord = true
  | none, none, _ => False
  -- a null in the condition that is read as a value
  | none, some _, none => True
  | none, some v, some a => vals.compare a v = some .eq
  -- a value in the condition that is read as null
  | some _, none, none => c.operator = .eq
  | some w, none, some a => ∃ holds ord, db.holds c.operator = some holds ∧
      db.compare c.column a (literal times value driver w) = some ord ∧ holds ord ≠ decide (c.operator = .ne)

/-- Values of one type compare alike: those of a column with the value of the condition, in the
process and, as a literal, in the database. -/
def EqualComparison (c : FilterCondition V) : Prop :=
  ∀ p, parseCondition vals schema resolve c = .ok p → ∀ v, p.value = some v →
    ∀ a, row c.column = some a → (vals.compare a v).isSome ∧
      ∀ w, c.value = some w → db.compare c.column a (literal times value driver w) = vals.compare a v

variable {times value driver db vals schema resolve row} {c : FilterCondition V}
  {p : ParsedCondition V}

theorem operator_of_parseCondition (h : parseCondition vals schema resolve c = .ok p) :
    p.column = resolve c.column ∧ p.operator = c.operator := by
  unfold parseCondition at h
  dsimp only at h
  split at h
  · cases h
  · split at h
    · cases h
      exact ⟨rfl, rfl⟩
    · cases h
      exact ⟨rfl, rfl⟩
    · cases h

theorem slip_null_iff (hvalue : c.value = none) (hk : buildCondition times value driver c = .ok k)
    (hcompare : ∀ v, parsed = some v → ∀ a, row c.column = some a → (vals.compare a v).isSome) :
    Slip times value driver db vals row c parsed ↔
      decide (k.eval db row = some (some true)) ≠
        decide (evaluate vals (row c.column) parsed c.operator = some true) := by
  unfold buildCondition at hk
  rw [hvalue] at hk
  unfold Slip
  rw [hvalue]
  -- the operator can only be one of the two
  have hk : c.operator = .eq ∧ k = .isNull c.column ∨ c.operator = .ne ∧ k = .isNotNull c.column := by
    cases hop : c.operator <;> rw [hop] at hk <;> cases hk <;> simp
  cases parsed with
  | none => rcases hk with ⟨hop, rfl⟩ | ⟨hop, rfl⟩ <;> cases hcell : row c.column <;>
      simp [Condition.eval, evaluate, hcell, hop]
  | some v =>
    cases hcell : row c.column with
    | none => rcases hk with ⟨hop, rfl⟩ | ⟨hop, rfl⟩ <;> simp [Condition.eval, evaluate, hcell, hop]
    | some a =>
      obtain ⟨ord, hord⟩ := isSome_iff_exists.1 (hcompare v rfl a hcell)
      rcases hk with ⟨hop, rfl⟩ | ⟨hop, rfl⟩ <;>
        simp [Condition.eval, evaluate, hcell, hop, hord, Operator.holds]

theorem slip_value_iff (hvalue : c.value = some w)
    (ht : (Condition.cmp c.column c.operator (literal times value driver w)).eval db row = some t)
    (hcompare : ∀ v, parsed = some v → ∀ a, row c.column = some a →
      db.compare c.column a (literal times value driver w) = vals.compare a v) :
    Slip times value driver db vals row c parsed ↔
      decide (t = some true) ≠ decide (evaluate vals (row c.column) parsed c.operator = some true) := by
  unfold Slip
  rw [hvalue]
  simp only [Condition.eval] at ht
  cases hholds : db.holds c.operator with
  | none => simp [hholds] at ht
  | some holds =>
    cases hcell : row c.column with
    | none =>
      have ht : t = none := by simpa [hholds, hcell] using ht.symm
      cases parsed <;> simp [ht, evaluate]
    | some a =>
      simp only [hholds, hcell, map_eq_some_iff] at ht
      obtain ⟨ord, hord, rfl⟩ := ht
      cases parsed with
      | none => simp [evaluate, hord]
      | some v =>
        have hsame : vals.compare a v = some ord := (hcompare v rfl a hcell).symm.trans hord
        cases hop : c.operator with
        | other text =>
          have htext : db.operator text = some holds := by simpa [Database.holds, hop] using hholds
          simp [evaluate, hord, htext, Operator.holds]
        | _ =>
          have hsix : holds = c.operator.holds := by simpa [Database.holds, hop, eq_comm] using hholds
          simp [evaluate, hsame, hsix, hop]

theorem slip_iff (hk : buildCondition times value driver c = .ok k)
    (hp : parseCondition vals schema resolve c = .ok p) (ht : k.eval db row = some t)
    (hequal : EqualComparison times value driver db vals schema resolve row c) :
    Slip times value driver db vals row c p.value ↔
      selects times value driver db row c ≠ keeps vals schema resolve row c := by
  unfold selects keeps
  rw [hk, hp]
  dsimp only
  rw [(operator_of_parseCondition hp).2]
  cases hvalue : c.value with
  | none => exact slip_null_iff hvalue hk fun v hv a ha => (hequal p hp v hv a ha).1
  | some w =>
    have hcmp : k = .cmp c.column c.operator (literal times value driver w) := by
      unfold buildCondition at hk
      rw [hvalue] at hk
      cases hk
      rfl
    rw [ht]
    rw [hcmp] at ht
    rw [slip_value_iff hvalue ht fun v hv a ha => (hequal p hp v hv a ha).2 w hvalue]
    simp only [some.injEq]

/-! ### Whole filters -/

variable {cs : List (FilterCondition V)} {ks : List Condition}

theorem forall₂_buildConditions (h : buildConditions times value driver cs = .ok ks) :
    Forall₂ (fun c k => buildCondition times value driver c = .ok k) cs ks := by
  fun_induction buildConditions times value driver cs generalizing ks with
  | case1 =>
    cases h
    exact .nil
  | case2 | case3 => cases h
  | case4 c cs k hk rest hrest ih =>
    cases h
    exact .cons hk (ih hrest)

variable {ps : List (ParsedCondition V)}

theorem forall₂_parseConditions (h : parseConditions vals schema resolve cs = .ok ps) :
    Forall₂ (fun c p => parseCondition vals schema resolve c = .ok p) cs ps := by
  fun_induction parseConditions vals schema resolve cs generalizing ps with
  | case1 =>
    cases h
    exact .nil
  | case2 | case3 => cases h
  | case4 c cs p hp rest hrest ih =>
    cases h
    exact .cons hp (ih hrest)

theorem combine_cons (or : Bool) {α : Type} (p : α → Bool) (a : α) (l : List α) :
    combine or p (a :: l) = if or then p a || combine or p l else p a && combine or p l := by
  cases or <;> rfl

/-- A clause is true at a row exactly if the conditions, joined, are. -/
theorem evalAll_spec {or : Bool}
    (hks : Forall₂ (fun c k => buildCondition times value driver c = .ok k) cs ks)
    (ht : evalAll db row or ks = some t) :
    (t = some true ↔ combine or (selects times value driver db row) cs = true) ∧
      ∀ c ∈ cs, ∃ k t, buildCondition times value driver c = .ok k ∧ k.eval db row = some t := by
  induction hks generalizing t with
  | nil =>
    cases ht
    cases or <;> simp [combine]
  | @cons c k cs rest hk _ ih =>
    rw [evalAll] at ht
    cases hc : k.eval db row with
    | none => simp [hc] at ht
    | some t₀ =>
      cases hcs : evalAll db row or rest with
      | none => simp [hcs] at ht
      | some t₁ =>
        obtain ⟨hiff, hall⟩ := ih hcs
        have hselects : selects times value driver db row c = true ↔ t₀ = some true := by
          simp [selects, hk, hc]
        have ht : t = if or then t₀.or t₁ else t₀.and t₁ := by simpa [hc, hcs, eq_comm] using ht
        refine ⟨?_, forall_mem_cons.2 ⟨⟨k, t₀, hk, hc⟩, hall⟩⟩
        rw [combine_cons]
        cases or
        · simp [ht, Truth.and_eq_true, hiff, hselects]
        · simp [ht, Truth.or_eq_true, hiff, hselects]

theorem evalAll_single (or : Bool) (k : Condition) : evalAll db row or [k] = k.eval db row := by
  cases hk : k.eval db row with
  | none => simp [evalAll, hk]
  | some t => cases or <;> cases t with
    | none => simp [evalAll, hk, Truth.or, Truth.and]
    | some b => cases b <;> simp [evalAll, hk, Truth.or, Truth.and]

/-- A clause that the database accepts is evaluated with the connective that the record filter
uses. -/
theorem evalAll_of_eval (hne : ks ≠ []) {T : Type} {threshold : T → Option Truth}
    (h : Where.eval db row threshold ⟨none, ks, logicalOperator⟩ = some truth) :
    evalAll db row (isOr logicalOperator) ks = some truth := by
  match ks, hne with
  | [k], _ =>
    rw [evalAll_single]
    exact h
  | k :: k' :: rest, _ =>
    simp only [Where.eval, bind_eq_some_iff] at h
    obtain ⟨or, hor, heval⟩ := h
    rw [isOr_of_connective hor]
    exact heval

/-- A record is kept exactly if the conditions, joined, hold for it. -/
theorem matchesConditions_spec {or : Bool}
    (hps : Forall₂ (fun c p => parseCondition vals schema resolve c = .ok p) cs ps)
    (hrow : ∀ c ∈ cs, data.get (resolve c.column) = row c.column) {b : Bool}
    (hb : matchesConditions vals data or ps = some b)
    (htotal : ∀ c ∈ cs, ∀ p, parseCondition vals schema resolve c = .ok p →
      (evaluate vals (row c.column) p.value p.operator).isSome) :
    b = combine or (keeps vals schema resolve row) cs := by
  induction hps with
  | nil =>
    cases hb
    cases or <;> rfl
  | @cons c p cs rest hp _ ih =>
    obtain ⟨holds, hholds⟩ := isSome_iff_exists.1 (htotal c mem_cons_self p hp)
    have hkeeps : keeps vals schema resolve row c = holds := by simp [keeps, hp, hholds]
    have hcell : data.get p.column = row c.column := by
      rw [(operator_of_parseCondition hp).1]
      exact hrow c mem_cons_self
    rw [matchesConditions, hcell, hholds] at hb
    dsimp only at hb
    rw [combine_cons, hkeeps]
    split at hb
    · next heq =>
      cases hb
      cases or <;> simp [heq]
    · next hne =>
      have hrest := ih (fun c' hc' => hrow c' (mem_cons_of_mem _ hc')) hb
        fun c' hc' => htotal c' (mem_cons_of_mem _ hc')
      rw [hrest]
      cases or <;> cases holds <;> first | rfl | exact absurd rfl hne

variable (times value driver db vals schema resolve row) in
/-- What the filter reads the condition's value as. -/
def parsedValue (c : FilterCondition V) : Option V :=
  match parseCondition vals schema resolve c with
  | .ok p => p.value
  | .error _ => none

variable (times value driver db vals schema resolve row) in
/-- The filter is decided without its slips: there is none, or another condition settles it, or
there are slips both ways. -/
def Settled (or : Bool) (cs : List (FilterCondition V)) : Prop :=
  (∀ c ∈ cs, ¬ Slip times value driver db vals row c (parsedValue vals schema resolve c)) ∨
  (∃ c ∈ cs, ¬ Slip times value driver db vals row c (parsedValue vals schema resolve c) ∧
    selects times value driver db row c = or) ∨
  (∃ c ∈ cs, Slip times value driver db vals row c (parsedValue vals schema resolve c) ∧
    selects times value driver db row c = true) ∧
  ∃ c ∈ cs, Slip times value driver db vals row c (parsedValue vals schema resolve c) ∧
    selects times value driver db row c = false

theorem EqualComparison.isSome (h : EqualComparison times value driver db vals schema resolve row c)
    (hp : parseCondition vals schema resolve c = .ok p) :
    (evaluate vals (row c.column) p.value p.operator).isSome := by
  cases hv : p.value with
  | none => cases row c.column <;> simp [evaluate]
  | some v =>
    cases ha : row c.column with
    | none => simp [evaluate]
    | some a => simpa [evaluate] using (h p hp v hv a ha).1

theorem parsed_of_mem (h : Forall₂ (fun c p => parseCondition vals schema resolve c = .ok p) cs ps) :
    ∀ c ∈ cs, ∃ p, parseCondition vals schema resolve c = .ok p := by
  induction h with
  | nil => exact nofun
  | cons hp _ ih => exact forall_mem_cons.2 ⟨⟨_, hp⟩, ih⟩

/-- The two decisions on a filter agree exactly if it is settled. -/
theorem combine_eq_iff_settled {or : Bool}
    (hsql : ∀ c ∈ cs, ∃ k t, buildCondition times value driver c = .ok k ∧ k.eval db row = some t)
    (hgo : ∀ c ∈ cs, ∃ p, parseCondition vals schema resolve c = .ok p)
    (hequal : ∀ c ∈ cs, EqualComparison times value driver db vals schema resolve row c) :
    combine or (selects times value driver db row) cs = combine or (keeps vals schema resolve row) cs ↔
      Settled times value driver db vals schema resolve row or cs := by
  have hslip : ∀ c ∈ cs, (Slip times value driver db vals row c (parsedValue vals schema resolve c) ↔
      selects times value driver db row c ≠ keeps vals schema resolve row c) := by
    intro c hc
    obtain ⟨k, t, hk, ht⟩ := hsql c hc
    obtain ⟨p, hp⟩ := hgo c hc
    have hvalue : parsedValue vals schema resolve c = p.value := by rw [parsedValue, hp]
    rw [hvalue]
    exact slip_iff hk hp ht (hequal c hc)
  rw [combine_agree_iff]
  refine or_congr (forall₂_congr fun c hc => ?_) (or_congr (exists_congr fun c => and_congr_right fun hc => ?_)
    (and_congr (exists_congr fun c => and_congr_right fun hc => ?_)
      (exists_congr fun c => and_congr_right fun hc => ?_)))
  · rw [hslip c hc, not_not]
  · rw [hslip c hc, not_not]
  · rw [hslip c hc]
  · rw [hslip c hc]

/-- The one record of a batch that is no delete is kept or dropped by the conditions. -/
theorem filterRecords_single {filter : FilterConfig V} (hne : filter.conditions ≠ [])
    (hop : record.opType ≠ .d)
    (h : FilterRecords vals [record] filter false schema resolve keepDeletes = .ok out) :
    ∃ ps b, parseConditions vals schema resolve filter.conditions = .ok ps ∧
      matchesConditions vals record.data (isOr filter.logicalOperator) ps = some b ∧
      (out = [record] ↔ b = true) := by
  have hpasses : passes keepDeletes record = false := by simp [passes, hop]
  unfold FilterRecords at h
  rw [if_neg (by simpa using hne), if_neg (by simp), if_neg (by simp [hpasses])] at h
  split at h
  · cases h
  · next ps hps =>
    simp only [keepRecords, hpasses] at h
    cases hb : matchesConditions vals record.data (isOr filter.logicalOperator) ps with
    | none => simp [hb] at h
    | some b =>
      refine ⟨ps, b, hps, hb, ?_⟩
      cases b
      · simp only [hb] at h
        cases h
        simp
      · simp only [hb] at h
        cases h
        simp

/-- A row is selected by the clause exactly if the record filter keeps it when it arrives as an
insert or update, if and only if the filter is settled without slips.  The database accepts the
clause, the record carries the row's columns, and values of one type compare alike. -/
theorem selected_iff_kept_iff {filter : FilterConfig V} {w : Where Unit}
    (hsql : SQLFilter times value driver filter none = .ok w) {truth : Truth}
    (hselect : w.eval db row (fun _ => none) = some truth)
    {record : RawRecord V} (hop : record.opType ≠ .d) {keepDeletes : Bool}
    (hrow : ∀ c ∈ filter.conditions, record.data.get (resolve c.column) = row c.column)
    {out : List (RawRecord V)}
    (hfilter : FilterRecords vals [record] filter false schema resolve keepDeletes = .ok out)
    (hequal : ∀ c ∈ filter.conditions, EqualComparison times value driver db vals schema resolve row c) :
    (truth = some true ↔ out = [record]) ↔
      Settled times value driver db vals schema resolve row (isOr filter.logicalOperator) filter.conditions := by
  obtain ⟨ks, hks, rfl⟩ : ∃ ks, buildConditions times value driver filter.conditions = .ok ks ∧
      w = ⟨none, ks, filter.logicalOperator⟩ := by
    unfold SQLFilter at hsql
    split at hsql
    · cases hsql
    · next ks hks =>
      cases hsql
      exact ⟨ks, hks, rfl⟩
  replace hks := forall₂_buildConditions hks
  by_cases hne : filter.conditions = []
  · have hks : ks = [] := forall₂_nil_left_iff.1 (hne ▸ hks)
    have htruth : truth = some true := by simpa [Where.eval, hks, eq_comm] using hselect
    have hout : out = [record] := by simpa [FilterRecords, hne, eq_comm] using hfilter
    exact iff_of_true (iff_of_true htruth hout) (.inl fun c hc => by simp [hne] at hc)
  obtain ⟨ps, b, hps, hb, hout⟩ := filterRecords_single hne hop hfilter
  replace hps := forall₂_parseConditions hps
  have hks' : ks ≠ [] := fun h => hne (forall₂_nil_right_iff.1 (h ▸ hks))
  obtain ⟨htruth, hsql⟩ := evalAll_spec hks (evalAll_of_eval hks' hselect)
  have hkept := matchesConditions_spec hps hrow hb fun c hc p hp => (hequal c hc).isSome hp
  rw [htruth, hout, hkept, ← combine_eq_iff_settled hsql (parsed_of_mem hps) hequal]
  exact Bool.eq_iff_iff.symm

end Conditions

/-! ### Rows of texts -/

def noTimes : Times := ⟨Unit, fun _ => none, fun _ => "", fun _ => ""⟩

/-- A database that compares texts only, for being equal. -/
def texts : Database (Typeutils.Value ranges) where
  compare := fun _ a l =>
    match a with
    | .string a => some (if l = .text a then .eq else .lt)
    | _ => none
  operator := fun _ => none

/-- `Compare` of texts, for being equal. -/
def compareTexts : Typeutils.Value ranges → Typeutils.Value ranges → Option Ordering
  | .string a, .string v => some (if v = a then .eq else .lt)
  | _, _ => none

def textValues : Values (Typeutils.Value ranges) := goValues rangeConversions compareTexts

def textLiteral : Typeutils.Value ranges → FilterValue := filterValue rangeConversions fun _ => ""

def tickets : Schema := .iceberg fun column =>
  if column = "status" then some "string" else if column = "closed_at" then some "timestamptz" else none

/-- A ticket with its status, not closed yet. -/
def ticket (status : Option String) : RawRecord (Typeutils.Value ranges) :=
  ⟨[("id", some (.string "7")), ("status", status.map .string), ("closed_at", none)], "7", .u⟩

def notOpen : FilterCondition (Typeutils.Value ranges) := ⟨"status", .ne, some (.string "open")⟩

/-- Neither open nor without a status. -/
def statusFilter : FilterConfig (Typeutils.Value ranges) := ⟨"and", [notOpen, ⟨"status", .ne, none⟩]⟩

/-- A ticket in work passes both ways. -/
theorem selected_iff_kept_iff_ticket :
    let record := ticket (some "in work");
    (∀ c ∈ statusFilter.conditions, record.data.get c.column = some (.string "in work")) ∧
      Settled noTimes textLiteral .postgres texts textValues tickets id record.data.get
        (isOr statusFilter.logicalOperator) statusFilter.conditions := by
  intro record
  have hsql : SQLFilter (T := Unit) noTimes textLiteral .postgres statusFilter none =
      .ok ⟨none, [.cmp "status" .ne (.text "open"), .isNotNull "status"], "and"⟩ := by rfl
  have hfilter : FilterRecords textValues [record] statusFilter false tickets id false = .ok [record] := by rfl
  have hstatus : ∀ c ∈ statusFilter.conditions, record.data.get c.column = some (.string "in work") :=
    forall_iff_forall_mem.1 ⟨rfl, rfl⟩
  have hequal : ∀ c ∈ statusFilter.conditions,
      EqualComparison noTimes textLiteral .postgres texts textValues tickets id record.data.get c := by
    intro c hc p hp v hv a ha
    rw [hstatus c hc] at ha
    cases ha
    simp only [statusFilter, mem_cons, not_mem_nil, or_false] at hc
    rcases hc with rfl | rfl
    · cases hp
      cases hv
      refine ⟨rfl, fun w hw => ?_⟩
      cases hw
      rfl
    · cases hp
      cases hv
  exact ⟨hstatus, (selected_iff_kept_iff hsql (by rfl) (by decide) (fun _ _ => rfl) hfilter hequal).1
    (iff_of_true rfl rfl)⟩

/-- A filter for tickets that are not open selects no row without a status, and keeps its
record; one for tickets without a closing time selects the row and drops its record. -/
theorem null_rows_differ :
    (∃ w, SQLFilter (T := Unit) noTimes textLiteral .postgres ⟨"and", [notOpen]⟩ none = .ok w ∧
      w.eval texts (ticket none).data.get (fun _ => none) = some none ∧
      FilterRecords textValues [ticket none] ⟨"and", [notOpen]⟩ false tickets id false = .ok [ticket none]) ∧
    ∃ w, SQLFilter (T := Unit) noTimes textLiteral .postgres ⟨"and", [⟨"closed_at", .eq, none⟩]⟩ none = .ok w ∧
      w.eval texts (ticket none).data.get (fun _ => none) = some (some true) ∧
      FilterRecords textValues [ticket none] ⟨"and", [⟨"closed_at", .eq, none⟩]⟩ false tickets id false = .ok [] :=
  ⟨⟨⟨none, [.cmp "status" .ne (.text "open")], "and"⟩, by rfl, by rfl, by rfl⟩,
    ⟨none, [.isNull "closed_at"], "and"⟩, by rfl, by rfl, by rfl⟩

end Olake.SqlFilter
