/-
# `Reckoner.Proofs.Calculator.Naming` — the function that a failed call names

A message names a function by a pair of parentheses behind its name; `calledNames` reads
these names off a message.  Numbers and counts in a message bring in no such pair
(`calledNames_text`), so a fault names one function, in its sentence and in the note of a
direct call.

An entry checks the count and the range under its own name, but a domain fault has the
name that the body of the routine knows.  The two agree for every entry of the standard
registry but one: `pow` shares the body of `power` (`routine_name_eq`).
-/
import Reckoner.Proofs.Calculator.Call
import Reckoner.Proofs.Routine.Domain

namespace Reckoner

/-! ## The names in a message -/

/-- The names in front of `()`, from left to right.  Of a name that has begun, `word` holds the
characters in reverse. -/
def calledNamesFrom (word : List Char) : List Char → List String
  | [] => []
  | '(' :: ')' :: cs => String.ofList word.reverse :: calledNamesFrom [] cs
  | c :: cs => calledNamesFrom (if isNamePart c then c :: word else []) cs

/-- The functions that a message names. -/
def calledNames (message : String) : List String := calledNamesFrom [] message.toList

example : calledNames "sqrt() of (2) is no ln()" = ["sqrt", "ln"] := by decide

section Scan

variable {word a b : List Char}

theorem calledNamesFrom_cons {c : Char} (hc : c ≠ '(') (cs : List Char) :
    calledNamesFrom word (c :: cs) =
      calledNamesFrom (if isNamePart c then c :: word else []) cs := by
  rw [calledNamesFrom]
  exact fun _ h => absurd h hc

theorem calledNamesFrom_open {c : Char} (hc : c ≠ ')') (cs : List Char) :
    calledNamesFrom word ('(' :: c :: cs) = calledNamesFrom [] (c :: cs) := by
  rw [calledNamesFrom]
  · rfl
  · intro _ _ h
    exact absurd (List.cons.inj h).1 hc

theorem calledNamesFrom_append (word b : List Char) (ha : '(' ∉ a) :
    ∃ word', calledNamesFrom word (a ++ b) = calledNamesFrom word' b := by
  induction a generalizing word with
  | nil => exact ⟨word, rfl⟩
  | cons c a ih =>
      obtain ⟨hc, ha⟩ := not_or.mp (mt List.mem_cons.mpr ha)
      rw [List.cons_append, calledNamesFrom_cons (Ne.symm hc)]
      exact ih _ ha

theorem calledNamesFrom_of_not_mem (ha : '(' ∉ a) : calledNamesFrom word a = [] := by
  obtain ⟨word', h⟩ := calledNamesFrom_append word [] ha
  rwa [List.append_nil] at h

theorem calledNamesFrom_of_filled {c : Char} (ha : '(' ∉ a) (hc : c ≠ ')') (hb : '(' ∉ c :: b) :
    calledNamesFrom word (a ++ '(' :: c :: b) = [] := by
  obtain ⟨word', h⟩ := calledNamesFrom_append word ('(' :: c :: b) ha
  rw [h, calledNamesFrom_open hc, calledNamesFrom_of_not_mem hb]

theorem calledNamesFrom_name {n : List Char} (hn : ∀ c ∈ n, isNamePart c = true) :
    calledNamesFrom word (n ++ '(' :: ')' :: b) =
      String.ofList (word.reverse ++ n) :: calledNamesFrom [] b := by
  induction n generalizing word with
  | nil => rw [List.nil_append, List.append_nil, calledNamesFrom]
  | cons c n ih =>
      obtain ⟨hc, hn⟩ := List.forall_mem_cons.mp hn
      have hne : c ≠ '(' := by
        rintro rfl
        exact absurd hc (by decide)
      rw [List.cons_append, calledNamesFrom_cons hne, if_pos hc, ih hn, List.reverse_cons,
        List.append_assoc, List.singleton_append]

theorem calledNamesFrom_blank_name {n : List Char} (ha : '(' ∉ a)
    (hn : ∀ c ∈ n, isNamePart c = true) :
    calledNamesFrom word (a ++ ' ' :: (n ++ '(' :: ')' :: b)) =
      String.ofList n :: calledNamesFrom [] b := by
  have hblank : isNamePart ' ' = false := by decide
  obtain ⟨word', h⟩ := calledNamesFrom_append word (' ' :: (n ++ '(' :: ')' :: b)) ha
  rw [h, calledNamesFrom_cons (by decide), hblank, if_neg Bool.false_ne_true,
    calledNamesFrom_name hn]
  rfl

end Scan

/-! ## Numbers in messages -/

/-- A text without parentheses that is not empty. -/
structure Plain (cs : List Char) : Prop where
  ne_nil : cs ≠ []
  opening : '(' ∉ cs
  closing : ')' ∉ cs

theorem Plain.append {cs ds : List Char} (hcs : Plain cs) (hds : Plain ds) : Plain (cs ++ ds) :=
  ⟨List.append_ne_nil_of_left_ne_nil hcs.ne_nil ds, List.not_mem_append hcs.opening hds.opening,
    List.not_mem_append hcs.closing hds.closing⟩

theorem Plain.exists_cons {cs : List Char} (h : Plain cs) :
    ∃ c ds, cs = c :: ds ∧ c ≠ ')' ∧ '(' ∉ c :: ds := by
  obtain ⟨c, ds, rfl⟩ := List.exists_cons_of_ne_nil h.ne_nil
  exact ⟨c, ds, rfl, fun hc => h.closing (hc ▸ List.mem_cons_self), h.opening⟩

theorem plain_of_digits {cs : List Char} (hne : cs ≠ [])
    (hcs : ∀ c ∈ cs, c.isDigit = true ∨ c = '.') : Plain cs := by
  refine ⟨hne, fun hc => ?_, fun hc => ?_⟩
  · exact absurd (hcs _ hc) (by decide)
  · exact absurd (hcs _ hc) (by decide)

theorem isDigit_toDigits {n : Nat} {c : Char} (hc : c ∈ Nat.toDigits 10 n) : c.isDigit = true :=
  Nat.isDigit_of_mem_toDigits (by decide) (by decide) hc

theorem plain_toString (n : Nat) : Plain (toString n).toList := by
  have hdigits : (toString n).toList = Nat.toDigits 10 n := String.toList_ofList
  rw [hdigits]
  exact plain_of_digits Nat.toDigits_ne_nil fun c hc => Or.inl (isDigit_toDigits hc)

theorem plain_positional (n : Nat) (e : Int) : Plain (Decimal.positional n e).toList := by
  have hzeros : ∀ k, ∀ c ∈ List.replicate k '0', c.isDigit = true := fun k c hc =>
    List.eq_of_mem_replicate hc ▸ by decide
  rw [Decimal.positional]
  split
  · rw [String.toList_ofList]
    refine plain_of_digits (List.append_ne_nil_of_left_ne_nil Nat.toDigits_ne_nil _) ?_
    exact fun c hc => Or.inl ((List.mem_append.mp hc).elim isDigit_toDigits (hzeros _ c))
  · rw [String.toList_ofList]
    have hpadded : ∀ {k : Nat} {c : Char}, c ∈ List.replicate k '0' ++ Nat.toDigits 10 n →
        c.isDigit = true := fun hc =>
      (List.mem_append.mp hc).elim (hzeros _ _) isDigit_toDigits
    refine plain_of_digits (List.append_ne_nil_of_right_ne_nil _ (List.cons_ne_nil _ _)) ?_
    intro c hc
    rcases List.mem_append.mp hc with hc | hc
    · exact Or.inl (hpadded (List.mem_of_mem_take hc))
    · exact (List.mem_cons.mp hc).symm.imp_left fun hc => hpadded (List.mem_of_mem_drop hc)

theorem plain_signText_append (s : Float.Model.UnpackedFloat.Sign) {t : String}
    (ht : Plain t.toList) : Plain (Decimal.signText s ++ t).toList := by
  rw [String.toList_append]
  have hminus : Plain "-".toList := ⟨by simp, by simp, by simp⟩
  cases s with
  | positive => exact ht
  | negative => exact hminus.append ht

theorem plain_text (x : Float) : Plain (Decimal.text x).toList := by
  rw [Decimal.text]
  split
  · exact ⟨by simp, by simp, by simp⟩
  · exact plain_signText_append _ ⟨by simp, by simp, by simp⟩
  · exact plain_signText_append _ ⟨by simp, by simp, by simp⟩
  · exact plain_signText_append _ (plain_positional _ _)

/-! ## The sentences of faults -/

section Sentences

variable {word : List Char}

theorem calledNamesFrom_parenthesized {s t r : String} {a : List Char}
    (hs : s.toList = a ++ ['(']) (ha : '(' ∉ a) (ht : Plain t.toList) (hr : '(' ∉ r.toList) :
    calledNamesFrom word (s ++ t ++ r).toList = [] := by
  obtain ⟨c, ds, hcons, hc, hds⟩ := ht.exists_cons
  simp only [String.toList_append, hs, hcons, List.append_assoc, List.cons_append,
    List.nil_append]
  exact calledNamesFrom_of_filled ha hc (List.not_mem_append hds hr)

theorem calledNamesFrom_number {s t : String} (hs : '(' ∉ s.toList) (ht : Plain t.toList) :
    calledNamesFrom word (s ++ t).toList = [] := by
  rw [String.toList_append]
  exact calledNamesFrom_of_not_mem (List.not_mem_append hs ht.opening)

theorem calledNamesFrom_numbers {s t u v r : String} (hs : '(' ∉ s.toList)
    (ht : Plain t.toList) (hu : '(' ∉ u.toList) (hv : Plain v.toList) (hr : '(' ∉ r.toList) :
    calledNamesFrom word (s ++ t ++ u ++ v ++ r).toList = [] := by
  simp only [String.toList_append]
  refine calledNamesFrom_of_not_mem (List.not_mem_append (List.not_mem_append
    (List.not_mem_append (List.not_mem_append hs ht.opening) hu) hv.opening) hr)

theorem calledNamesFrom_violation (v : Violation) : calledNamesFrom word v.text.toList = [] := by
  cases v with
  | outsideUnitInterval x | notPositive x | badBase x | badDegree x =>
      exact calledNamesFrom_number (by simp) (plain_text x)
  | zeroToZero => exact calledNamesFrom_of_not_mem (a := "0 ** 0 is undefined".toList) (by simp)
  | zeroToNegative exponent =>
      exact calledNamesFrom_parenthesized (a := "0 cannot be raised to a negative power ".toList)
        (by simp) (by simp) (plain_text exponent) (by simp)
  | squareRootOfNegative x =>
      exact calledNamesFrom_parenthesized
        (a := "cannot take the square root of a negative number ".toList)
        (by simp) (by simp) (plain_text x) (by simp)
  | fractionalPower x y | rootOfNegative x y =>
      exact calledNamesFrom_numbers (by simp) (plain_text x) (by simp)
        (plain_text y) (by simp)
  | tooFewValues count =>
      exact calledNamesFrom_number (s := "requires at least two values, got ") (by simp)
        (plain_toString count)

theorem not_mem_arity_text (a : Arity) : '(' ∉ a.text.toList := by
  have hcount : ∀ {s : String} (n : Nat), '(' ∉ s.toList → '(' ∉ (s ++ toString n).toList := by
    intro s n hs
    rw [String.toList_append]
    exact List.not_mem_append hs (plain_toString n).opening
  cases a with
  | exactly n => exact hcount (s := "exactly ") n (by simp)
  | atLeast n => exact hcount (s := "at least ") n (by simp)
  | between least most =>
      refine hcount (s := toString least ++ " to ") most ?_
      rw [String.toList_append]
      exact List.not_mem_append (plain_toString least).opening (by simp)

/-- A sentence with a name behind some words. -/
theorem calledNames_behind {s n p r : String} {a b : List Char}
    (hn : ∀ c ∈ n.toList, isNamePart c = true) (hs : s.toList = a ++ [' '])
    (hp : p.toList = '(' :: ')' :: b) (ha : '(' ∉ a) (hb : '(' ∉ b)
    (hr : ∀ word, calledNamesFrom word r.toList = []) : calledNames (s ++ n ++ p ++ r) = [n] := by
  obtain ⟨word, hrest⟩ := calledNamesFrom_append [] r.toList hb
  simp only [calledNames, String.toList_append, hs, hp, List.append_assoc, List.cons_append,
    List.nil_append]
  rw [calledNamesFrom_blank_name ha hn, hrest, hr, String.ofList_toList]

/-- A sentence that begins with a name, and has parentheses with a letter inside. -/
theorem calledNames_front {n p u v t : String} {b d e : List Char} {c : Char}
    (hn : ∀ c ∈ n.toList, isNamePart c = true) (hp : p.toList = '(' :: ')' :: b)
    (hv : v.toList = d ++ '(' :: c :: e) (hb : '(' ∉ b) (hu : '(' ∉ u.toList) (hd : '(' ∉ d)
    (hc : c ≠ ')') (he : '(' ∉ c :: e) (ht : '(' ∉ t.toList) :
    calledNames (n ++ p ++ u ++ v ++ t) = [n] := by
  have hback : '(' ∉ c :: (e ++ t.toList) := List.not_mem_append he ht
  have hfilled : calledNamesFrom [] _ = [] :=
    calledNamesFrom_of_filled (List.not_mem_append hb (List.not_mem_append hu hd)) hc hback
  simp only [List.append_assoc] at hfilled
  simp only [calledNames, String.toList_append, hp, hv, List.append_assoc, List.cons_append]
  rw [calledNamesFrom_name hn, hfilled, List.reverse_nil, List.nil_append, String.ofList_toList]

/-- A sentence of a fault names the routine of the fault and nothing else. -/
theorem calledNames_text {f : Fault} (hf : ∀ c ∈ f.routine.toList, isNamePart c = true) :
    calledNames f.text = [f.routine] := by
  cases f with
  | domain routine violation =>
      exact calledNames_behind (a := "Domain error in".toList) (b := ": ".toList) hf
        (by simp) (by simp) (by simp) (by simp)
        fun _ => calledNamesFrom_violation violation
  | arity routine expected given =>
      exact calledNames_front (b := " expects ".toList) (d := " argument".toList) (c := 's')
        (e := "), got ".toList) hf (by simp) (by simp) (by simp)
        (not_mem_arity_text expected) (by simp) (by decide) (by simp)
        (plain_toString given).opening
  | overflow routine =>
      have htext : (Fault.overflow routine).text =
          "Numeric overflow in " ++ routine ++ "()" ++ "" :=
        String.append_empty.symm
      rw [htext]
      exact calledNames_behind (a := "Numeric overflow in".toList) (b := []) hf
        (by simp) (by simp) (by simp) (by simp)
        fun _ => rfl

end Sentences

/-! ## Entries and their routines -/

theorem forall_standard {p : Entry → Prop}
    (h : ∀ e ∈ Registry.trigonometric ++ Registry.logarithmic ++ Registry.exponential ++
      Registry.statistical, p e) : ∀ e ∈ Registry.standard.entries, p e := by
  rw [Registry.entries_standard]
  exact h

theorem routine_name_eq : ∀ e ∈ Registry.standard.entries,
    e.routine.name = if e.name = "pow" then "power" else e.name :=
  forall_standard (by decide)

theorem all_isNamePart_name : ∀ e ∈ Registry.standard.entries,
    e.name.toList.all isNamePart = true ∧ e.routine.name.toList.all isNamePart = true :=
  forall_standard (by decide)

theorem arity_body : ∀ e ∈ Registry.standard.entries,
    e.routine.body.arity = e.arity ∨ e.routine.body.arity = .atLeast 0 :=
  forall_standard (by decide)

/-- Who is named: the entry for the count and the range, the routine for the domain. -/
theorem routine_of_call_eq_error {e : Entry} (he : e ∈ Registry.standard.entries)
    {xs : List Number} {fault : Fault} (h : e.call xs = .error fault) :
    fault.routine = match fault with
      | .domain .. => e.routine.name
      | .arity .. | .overflow _ => e.name := by
  cases hcount : e.arity.accepts xs.length with
  | false =>
      rw [Entry.call_of_not_accepts hcount] at h
      obtain rfl := Except.error.inj h
      rfl
  | true =>
      obtain ⟨a, ha⟩ : ∃ a, e.routine.body.answer? xs = some a := by
        rw [← Option.isSome_iff_exists, Body.answer?_isSome]
        rcases arity_body e he with harity | harity
        · rw [harity]
          exact hcount
        · rw [harity]
          exact decide_eq_true (Nat.zero_le xs.length)
      cases a with
      | error violation =>
          rw [Entry.call_of_error hcount ha] at h
          obtain rfl := Except.error.inj h
          rfl
      | ok v =>
          have hrun : e.routine.run xs = .ok v := by
            rw [Routine.run, ha]
            rfl
          simp only [Entry.call, if_pos hcount, hrun] at h
          split at h
          · obtain rfl := Except.error.inj h
            rfl
          · cases h

/-! ## Calls -/

/-- The name that a failed direct call of `f` tells, by the kind of its failure. -/
def toldName (f : String) (k : Kind) : String := if f = "pow" ∧ k = .domain then "power" else f

theorem exists_fault_of_call {c : Calculator} (hc : c.registry = .standard) {f : String}
    (hf : c.registry.contains f = true) {xs : List Number} {d : CallFault}
    (h : c.call f xs = .error d) : ∃ fault, d = .fault fault ∧
      fault.routine = toldName f d.report.kind ∧
        ∀ c ∈ fault.routine.toList, isNamePart c = true := by
  rw [Registry.contains_eq_isSome] at hf
  obtain ⟨e, he⟩ := Option.isSome_iff_exists.mp hf
  have hname : e.name = f := Registry.records_standard.name_of_get? (hc ▸ he)
  have hmem : e ∈ Registry.standard.entries :=
    Registry.records_standard.mem_entries_iff.mpr (hname.symm ▸ hc ▸ he)
  rw [Calculator.call, he] at h
  cases hcall : e.call xs with
  | ok v =>
      simp only [hcall] at h
      cases h
  | error fault =>
      simp only [hcall] at h
      obtain rfl := Except.error.inj h
      have hroutine := routine_of_call_eq_error hmem hcall
      obtain ⟨hentry, hbody⟩ :=
        (all_isNamePart_name e hmem).imp List.all_eq_true.mp List.all_eq_true.mp
      refine ⟨fault, rfl, ?_⟩
      cases fault with
      | domain routine violation =>
          obtain rfl : routine = e.routine.name := hroutine
          refine ⟨?_, hbody⟩
          show e.routine.name = _
          rw [routine_name_eq e hmem, toldName, hname]
          simp [CallFault.report]
      | arity routine expected given | overflow routine =>
          obtain rfl : routine = e.name := hroutine
          refine ⟨?_, hentry⟩
          show e.name = _
          rw [toldName, hname]
          simp [CallFault.report]

/-- **A failed call names the function that was called, unless that is `pow`.**  In the standard
registry, the sentence of a failed direct call names one function and the note names the same.
That is the one that was called, but a domain fault of `pow` names `power`.  The same call within
an expression tells the same sentence, and its note always names the function that was called. -/
theorem failed_call_names {c : Calculator} (hc : c.registry = .standard) {f : String}
    (hf : c.registry.contains f = true) {xs : List Number} {d : CallFault}
    (h : c.call f xs = .error d) :
    d.report.notes = [("function", toldName f d.report.kind)] ∧
      calledNames d.report.message = [toldName f d.report.kind] ∧
      ∀ (vars : Bindings) (es : List Expr),
        es.map (Expr.eval c.registry vars) = xs.map Except.ok →
        ∃ fault, (Expr.call f es).eval c.registry vars = .error fault ∧
          fault.report.notes = [("function", f)] ∧
          calledNames fault.report.message = [toldName f d.report.kind] := by
  obtain ⟨fault, rfl, hroutine, hpart⟩ := exists_fault_of_call hc hf h
  have hmessage := calledNames_text hpart
  rw [hroutine] at hmessage
  refine ⟨?_, hmessage, fun vars es hes => ?_⟩
  · rw [← hroutine]
    rfl
  · refine ⟨.call f fault, ?_, rfl, hmessage⟩
    rw [Expr.eval_call c vars f (Expr.evalList_eq_ok hes), h]
    rfl

/-- Zero to the power of zero, under the name `pow`. -/
theorem failed_call_names_pow :
    ({} : Calculator).registry = .standard ∧
      ({} : Calculator).registry.contains "pow" = true ∧
      ∃ d, ({} : Calculator).call "pow" [0.0, 0.0] = .error d ∧
        d.report.notes = [("function", "power")] ∧
        ∃ fault, (Expr.call "pow" [.number 0.0, .number 0.0]).eval .standard [] = .error fault ∧
          fault.report.notes = [("function", "pow")] ∧
          calledNames fault.report.message = ["power"] := by
  have hf : ({} : Calculator).registry.contains "pow" = true := by
    rw [Registry.contains_eq_isSome, Registry.get?_standard]
    with_unfolding_all rfl
  have hcall : ({} : Calculator).call "pow" [0.0, 0.0] =
      .error (.fault (.domain "power" .zeroToZero)) := by
    rw [Calculator.call, Registry.get?_standard]
    with_unfolding_all rfl
  obtain ⟨hnotes, -, hexpression⟩ := failed_call_names (c := {}) rfl hf hcall
  obtain ⟨fault, heval, hnotes', hnames⟩ :=
    hexpression [] [.number 0.0, .number 0.0] (by with_unfolding_all rfl)
  exact ⟨rfl, hf, _, hcall, hnotes, fault, heval, hnotes', hnames⟩

/-- So the function that was called is not always the one that is named. -/
theorem failed_call_misnamed :
    ¬∀ (f : String) (xs : List Number) (d : CallFault),
      Registry.standard.contains f = true → ({} : Calculator).call f xs = .error d →
      d.report.note? "function" = some f ∧ calledNames d.report.message = [f] := by
  intro h
  have hcall : ({} : Calculator).call "pow" [0.0, 0.0] =
      .error (.fault (.domain "power" .zeroToZero)) := by
    rw [Calculator.call, Registry.get?_standard]
    with_unfolding_all rfl
  have hf : Registry.standard.contains "pow" = true := by
    rw [Registry.contains_eq_isSome, Registry.get?_standard]
    with_unfolding_all rfl
  obtain ⟨hnote, -⟩ := h "pow" [0.0, 0.0] _ hf hcall
  exact absurd hnote (by decide +kernel)

end Reckoner
