import MetricLedger.Proofs.Relational.Questions

/-!
# The shape of a migration

The text of a migration has marks for the table prefix. An identifier in their place brings no
semicolon, no blank and no empty statement with it, so the statements are those of the template with
their marks filled. Main statement: `statements_keepShape`.
-/

namespace MetricLedger

namespace Relational

open Text

namespace Migration

variable {filling : List Char}

/-! ## Plain fillings -/

/-- A text that can stand for the marks of a template without a change of its shape. -/
structure IsPlain (filling : List Char) : Prop where
  ne_nil : filling ≠ []
  unmarked : ';' ∉ filling
  filled : ∀ c ∈ filling, isBlank c = false

theorem not_mem_prefixMark_of_blank {c : Char} (h : isBlank c = true) : c ∉ prefixMark := by
  intro hc
  have hall : ∀ d ∈ prefixMark, isBlank d = false := by simp [prefixMark_eq, isBlank]
  rw [hall c hc] at h
  cases h

namespace IsPlain

variable (hfilling : IsPlain filling)

include hfilling

theorem fill_eq_nil_iff {cs : List Char} : fill filling cs = [] ↔ cs = [] := by
  constructor
  · intro h
    induction cs using template_induction with
    | nil => rfl
    | mark cs _ =>
        rw [fill_of_mark] at h
        exact absurd (List.append_eq_nil_iff.1 h).1 hfilling.ne_nil
    | char c cs hc _ =>
        rw [fill_of_no_mark filling hc] at h
        cases h
  · rintro rfl
    rw [fill]

theorem startsFilled_fill {cs : List Char} (h : StartsFilled cs) :
    StartsFilled (fill filling cs) := by
  induction cs using template_induction with
  | nil => rwa [fill]
  | mark cs _ =>
      rw [fill_of_mark]
      intro c hc
      rw [List.head?_append_of_ne_nil _ hfilling.ne_nil] at hc
      exact hfilling.filled c (List.mem_of_mem_head? hc)
  | char c cs hc _ =>
      rw [fill_of_no_mark filling hc]
      exact h

theorem endsFilled_fill {cs : List Char} (h : EndsFilled cs) : EndsFilled (fill filling cs) := by
  induction cs using template_induction with
  | nil => rwa [fill]
  | mark cs ih =>
      rw [fill_of_mark]
      refine EndsFilled.append ?_ (ih (h.of_append _))
      intro c hc
      exact hfilling.filled c (List.mem_of_mem_getLast? hc)
  | char c cs hc ih =>
      rw [fill_of_no_mark filling hc]
      by_cases hcs : cs = []
      · subst hcs
        rwa [fill]
      · intro d hd
        rw [List.getLast?_cons_of_ne_nil (mt hfilling.fill_eq_nil_iff.1 hcs)] at hd
        exact ih (EndsFilled.of_append [c] h) d hd

theorem trimStart_fill (cs : List Char) :
    trimStart (fill filling cs) = fill filling (trimStart cs) := by
  induction cs with
  | nil => simp [trimStart, fill]
  | cons c cs ih =>
      by_cases hc : isBlank c = true
      · have hfill := fill_append_cons filling (not_mem_prefixMark_of_blank hc) [] cs
        rw [List.nil_append, fill, List.nil_append] at hfill
        rw [hfill, trimStart, trimStart, List.dropWhile_cons_of_pos hc, List.dropWhile_cons_of_pos hc]
        exact ih
      · have hstarts : StartsFilled (c :: cs) := by
          intro d hd
          obtain rfl : c = d := Option.some.inj hd
          simpa using hc
        rw [trimStart_of_startsFilled hstarts,
          trimStart_of_startsFilled (hfilling.startsFilled_fill hstarts)]

theorem trimEnd_fill (cs : List Char) : trimEnd (fill filling cs) = fill filling (trimEnd cs) := by
  induction cs using List.reverseRecOn with
  | nil => simp [trimEnd, fill]
  | append_singleton cs c ih =>
      by_cases hc : isBlank c = true
      · rw [fill_append_cons filling (not_mem_prefixMark_of_blank hc), fill,
          trimEnd_concat_of_blank hc, trimEnd_concat_of_blank hc, ih]
      · have hends : EndsFilled (cs ++ [c]) := by
          intro d hd
          rw [List.getLast?_append, List.getLast?_singleton, Option.some_or] at hd
          obtain rfl : c = d := Option.some.inj hd
          simpa using hc
        rw [trimEnd_of_endsFilled hends, trimEnd_of_endsFilled (hfilling.endsFilled_fill hends)]

theorem trim_fill (cs : List Char) : trim (fill filling cs) = fill filling (trim cs) := by
  rw [trim, hfilling.trimStart_fill, hfilling.trimEnd_fill, trim]

theorem pieces_fill (cs : List Char) :
    pieces ';' (fill filling cs) = (pieces ';' cs).map (fill filling) := by
  have hunmarked : ∀ part ∈ (pieces ';' cs).map (fill filling), ';' ∉ part := by
    intro part hpart hmem
    obtain ⟨piece, hpiece, rfl⟩ := List.mem_map.1 hpart
    obtain hmem | hmem := mem_or_mem_of_mem_fill hmem
    · exact hfilling.unmarked hmem
    · exact not_mem_of_mem_pieces hpiece hmem
  have hne : (pieces ';' cs).map (fill filling) ≠ [] := by
    simpa using pieces_ne_nil ';' cs
  have hcs := fill_intercalate filling (by decide : ';' ∉ prefixMark) (pieces ';' cs)
  rw [intercalate_pieces] at hcs
  rw [hcs, pieces_intercalate hunmarked hne]

/-- The statements of a filled template are the filled statements of the template. -/
theorem statementsOf_fill (cs : List Char) :
    statementsOf (fill filling cs) = (statementsOf cs).map (fill filling) := by
  have htrim : (pieces ';' (fill filling cs)).map trim
      = ((pieces ';' cs).map trim).map (fill filling) := by
    rw [hfilling.pieces_fill, List.map_map, List.map_map]
    apply List.map_congr_left
    intro piece _
    exact hfilling.trim_fill piece
  have hempty : (fun piece => !(fill filling piece).isEmpty) = fun piece => !piece.isEmpty := by
    funext piece
    rw [Bool.eq_iff_iff]
    simp only [Bool.not_eq_true', List.isEmpty_eq_false_iff, ne_eq, hfilling.fill_eq_nil_iff]
  rw [statementsOf, htrim, List.filter_map, statementsOf]
  exact congrArg (fun keep => (((pieces ';' cs).map trim).filter keep).map (fill filling)) hempty

end IsPlain

end Migration

/-! ## Valid prefixes -/

/-- A lower case letter, followed by lower case letters, digits and underscores. -/
inductive IsName : List Char → Prop
  | mk {c : Char} {cs : List Char} (hc : 'a' ≤ c ∧ c ≤ 'z')
      (hcs : ∀ d ∈ cs, 'a' ≤ d ∧ d ≤ 'z' ∨ '0' ≤ d ∧ d ≤ '9' ∨ d = '_') : IsName (c :: cs)

theorem isLower_iff {c : Char} : c.isLower = true ↔ 'a' ≤ c ∧ c ≤ 'z' := by
  simp [Char.isLower, Char.le_def]

theorem isDigit_iff {c : Char} : c.isDigit = true ↔ '0' ≤ c ∧ c ≤ '9' := by
  simp [Char.isDigit, Char.le_def]

theorem isName_of_validate {o : Options} (h : o.validate = .ok ()) : IsName o.tablePrefix.toList := by
  have hidentifier : Options.isIdentifier o.tablePrefix = true := by
    by_contra hnot
    rw [Options.validate, if_pos (by simpa using hnot)] at h
    cases h
  unfold Options.isIdentifier at hidentifier
  split at hidentifier
  · cases hidentifier
  next c cs hlist =>
    simp only [Bool.and_eq_true, List.all_eq_true, decide_eq_true_eq] at hidentifier
    rw [hlist]
    refine .mk (isLower_iff.1 hidentifier.1.1) fun d hd => ?_
    have hallowed := hidentifier.1.2 d hd
    simp only [Options.allowedInPrefix, Bool.or_eq_true, beq_iff_eq, isLower_iff, isDigit_iff,
      or_assoc] at hallowed
    exact hallowed

theorem IsName.toNat_bounds {cs : List Char} (h : IsName cs) {c : Char} (hc : c ∈ cs) :
    48 ≤ c.toNat ∧ c.toNat ≤ 57 ∨ c.toNat = 95 ∨ 97 ≤ c.toNat ∧ c.toNat ≤ 122 := by
  have hrange {low high : Char} (hc : low ≤ c ∧ c ≤ high) :
      low.toNat ≤ c.toNat ∧ c.toNat ≤ high.toNat := hc
  obtain ⟨hfirst, hrest⟩ := h
  obtain rfl | hc := List.mem_cons.1 hc
  · exact .inr (.inr (hrange hfirst))
  · obtain hc | hc | rfl := hrest c hc
    · exact .inr (.inr (hrange hc))
    · exact .inl (hrange hc)
    · exact .inr (.inl rfl)

theorem IsName.isPlain {cs : List Char} (h : IsName cs) : Migration.IsPlain cs where
  ne_nil := by
    cases h
    exact List.cons_ne_nil _ _
  unmarked hmem := by
    have hbounds : 48 ≤ 59 ∧ 59 ≤ 57 ∨ 59 = 95 ∨ 97 ≤ 59 ∧ 59 ≤ 122 := h.toNat_bounds hmem
    omega
  filled c hc := by
    have hbounds := h.toNat_bounds hc
    simp only [isBlank, Bool.or_eq_false_iff, Bool.and_eq_false_iff, decide_eq_false_iff_not,
      beq_eq_false_iff_ne]
    omega

/-! ## What a migration sends -/

/-- The statement that a question asks. -/
def Question.statement? : Question → Option Statement
  | .connection _ => none
  | .statement asked _ => some asked

theorem Answered.filterMap_statement? {statements : List Statement} {asked : List Question}
    (h : Answered statements asked) : asked.filterMap Question.statement? = statements := by
  induction h with
  | nil => rfl
  | cons hq _ ih =>
      obtain ⟨rows, rfl⟩ := hq
      exact congrArg (_ :: ·) ih

/-- How some statements are sent one after the other: all of them are answered, or the first one that
is refused is the last one that is sent, and its refusal is the failure. -/
inductive SentInTurn {α : Type} (statements : List Statement) :
    List Question → Except Failure α → Prop
  | all {asked : List Question} {a : α} (h : Answered statements asked) :
      SentInTurn statements asked (.ok a)
  | refused {sent rest : List Statement} {last : Statement} {asked : List Question}
      {operation : String} {fault : ClientFault} (hstatements : statements = sent ++ last :: rest)
      (h : Answered sent asked) : SentInTurn statements (asked ++ [.statement last (.error fault)])
        (.error (Database.versionFailure operation fault))

section Sends

variable {σ α β : Type}

/-- An exchange sends statements in turn, and does so with a record of them and without it. -/
def Exchange.Sends (x : Exchange (σ × List Question) α) (y : Exchange σ α)
    (statements : List Statement) : Prop :=
  ∀ s before, ∃ asked result next, x (s, before) = (result, next, before ++ asked) ∧
    y s = (result, next) ∧ SentInTurn statements asked result

namespace Exchange.Sends

theorem pure (a : α) : Sends (pure a : Exchange (σ × List Question) α) (pure a) [] := by
  intro s before
  refine ⟨[], .ok a, s, ?_, rfl, .all .nil⟩
  rw [List.append_nil]
  rfl

theorem bind {x : Exchange (σ × List Question) α} {y : Exchange σ α}
    {k : α → Exchange (σ × List Question) β} {l : α → Exchange σ β} {first second : List Statement}
    (hx : Sends x y first) (hk : ∀ a, Sends (k a) (l a) second) :
    Sends (x >>= k) (y >>= l) (first ++ second) := by
  intro s before
  obtain ⟨asked, result, mid, hrun, hplain, hsent⟩ := hx s before
  rw [bind_apply, bind_apply, hrun, hplain]
  cases hsent with
  | @refused sent rest last _ _ _ hfirst hanswered =>
      have hall : first ++ second = sent ++ last :: (rest ++ second) := by
        rw [hfirst, List.append_assoc, List.cons_append]
      exact ⟨_, _, mid, rfl, rfl, .refused hall hanswered⟩
  | @all asked a hfirst =>
      obtain ⟨later, result, next, hrun', hplain', hsent'⟩ := hk a mid (before ++ asked)
      refine ⟨asked ++ later, result, next, ?_, hplain', ?_⟩
      · rw [← List.append_assoc]
        exact hrun'
      · cases hsent' with
        | all hsecond => exact .all (hfirst.append hsecond)
        | @refused sent rest last _ _ _ hsecond hanswered =>
            have hall : first ++ second = first ++ sent ++ last :: rest := by
              rw [hsecond, List.append_assoc]
            rw [← List.append_assoc]
            exact .refused hall (hfirst.append hanswered)

variable (db : Database σ)

theorem orAbandon {x : Exchange (σ × List Question) α} {y : Exchange σ α}
    {statements : List Statement} (hx : Sends x y statements) :
    Sends (db.recorded.orAbandon x) (db.orAbandon y) statements := by
  intro s before
  obtain ⟨asked, result, next, hrun, hplain, hsent⟩ := hx s before
  simp only [Database.orAbandon, hrun, hplain]
  cases result with
  | ok a => exact ⟨asked, .ok a, next, rfl, rfl, hsent⟩
  | error f => exact ⟨asked, .error f, db.abandon next, rfl, rfl, hsent⟩

theorem tell (operation : String) (statement : Statement) :
    Sends (db.recorded.tell (Database.versionFailure operation) statement)
      (db.tell (Database.versionFailure operation) statement) [statement] := by
  intro s before
  rcases hsend : db.send statement s with ⟨reply, next⟩
  refine ⟨[.statement statement reply], outcomeOf (Database.versionFailure operation) reply, next,
    ?_, ?_, ?_⟩
  · simp only [Database.tell, Database.ask, Database.recorded, hsend]
    cases reply <;> rfl
  · simp only [Database.tell, Database.ask, hsend]
    cases reply <;> rfl
  · cases reply with
    | ok rows => exact .all (answered_singleton_iff.2 ⟨rows, rfl⟩)
    | error fault => exact .refused (show [statement] = [] ++ [statement] from rfl) .nil

theorem texts (operation : String) (texts : List String) :
    Sends (texts.forM fun text =>
        db.recorded.tell (Database.versionFailure operation) (.schema text))
      (texts.forM fun text => db.tell (Database.versionFailure operation) (.schema text))
      (texts.map .schema) := by
  induction texts with
  | nil => exact .pure ()
  | cons text texts ih => exact (tell db operation (.schema text)).bind fun _ => ih

end Exchange.Sends

open Exchange.Sends in
theorem applyMigration_sends (db : Database σ) (tablePrefix : String) (m : Migration) :
    Exchange.Sends (db.recorded.applyMigration tablePrefix m) (db.applyMigration tablePrefix m)
      (m.transaction tablePrefix) := by
  have hbody := (texts db s!"migration_v{m.version}: {m.description}"
    (m.statements tablePrefix)).bind fun _ =>
      tell db "record_migration" (.recordVersion m.version m.description)
  have hall := ((tell db s!"migration_v{m.version}_begin_tx" .startTransaction).orAbandon db).bind
    fun _ => (hbody.orAbandon db).bind fun _ =>
      tell db s!"migration_v{m.version}_commit" .commit
  rwa [List.append_assoc] at hall

end Sends

/-! ## The shape of a migration -/

/-- The statements of a template consist of parts with marks between them, and no part holds a mark. A
valid prefix is a name, and the statements of the migration are those of the template with the prefix
between the parts of each. The migration sends them in this order, behind the start of a transaction
and ahead of the record of its version and the commit. It stops at the first one that is refused, and
at no other: it succeeds if all are answered. -/
theorem statements_keepShape (m : Migration) : ∃ shape : List (List (List Char)),
    Migration.statementsOf m.template.toList = shape.map Migration.prefixMark.intercalate ∧
    (∀ parts ∈ shape, ∀ part ∈ parts, ¬Migration.prefixMark <:+: part) ∧
    ∀ o : Options, o.validate = .ok () →
      IsName o.tablePrefix.toList ∧
      m.statements o.tablePrefix = (Migration.statementsOf m.template.toList).map
        (fun text => String.ofList (Migration.fill o.tablePrefix.toList text)) ∧
      m.statements o.tablePrefix =
        shape.map (fun parts => String.ofList (o.tablePrefix.toList.intercalate parts)) ∧
      ∀ {σ : Type} (db : Database σ), Exchange.Sends
        (db.recorded.applyMigration o.tablePrefix m) (db.applyMigration o.tablePrefix m)
        (.startTransaction ::
          shape.map (fun parts => .schema (String.ofList (o.tablePrefix.toList.intercalate parts))) ++
          [.recordVersion m.version m.description, .commit]) := by
  choose partsOf hparts hunmarked using Migration.exists_parts
  refine ⟨(Migration.statementsOf m.template.toList).map partsOf, ?_, ?_, fun o ho => ?_⟩
  · rw [List.map_map]
    exact (List.map_id'' hparts _).symm
  · intro parts hmem
    obtain ⟨text, -, rfl⟩ := List.mem_map.1 hmem
    exact hunmarked text
  · have hname := isName_of_validate ho
    have hfilled : m.statements o.tablePrefix = (Migration.statementsOf m.template.toList).map
        fun text => String.ofList (Migration.fill o.tablePrefix.toList text) := by
      rw [Migration.statements, hname.isPlain.statementsOf_fill, List.map_map]
      rfl
    have hshape : m.statements o.tablePrefix =
        ((Migration.statementsOf m.template.toList).map partsOf).map
          fun parts => String.ofList (o.tablePrefix.toList.intercalate parts) := by
      rw [hfilled, List.map_map]
      apply List.map_congr_left
      intro text _
      rw [← hparts text, Migration.fill_intercalate_mark _ (hunmarked text), hparts]
      rfl
    refine ⟨hname, hfilled, hshape, fun {σ} db => ?_⟩
    have hsends := applyMigration_sends db o.tablePrefix m
    rw [Migration.transaction, Migration.transactionOf, hshape, List.map_map] at hsends
    exact hsends

/-- A migration of two statements. -/
def twoDrops : Migration :=
  ⟨3, "", " DROP TABLE \x7bprefix\x7d_old ;; DROP TABLE \x7bprefix\x7d_older"⟩

/-- A database with an open connection to a server that refuses some texts. -/
def choosyDatabase (refused : List String) : Database (Pool × Unit) :=
  let server : Server Unit :=
    { connect := fun _ t => (.ok (), t)
      answer := fun c t =>
        if c.text ∈ refused then (.error (.database "42P01"), t) else (.ok [], t) }
  Pool.database server twoLogin "metrics"

/-- A database that answers all is sent both statements, and one that refuses the first is not sent the
second. -/
theorem statements_keepShape_standard :
    Options.standard.validate = .ok () ∧
    (∃ shape : List (List (List Char)),
      shape.map Migration.prefixMark.intercalate =
        ["DROP TABLE \x7bprefix\x7d_old".toList, "DROP TABLE \x7bprefix\x7d_older".toList] ∧
      twoDrops.statements "metrics" =
        shape.map (fun parts => String.ofList ("metrics".toList.intercalate parts)) ∧
      twoDrops.statements "metrics" = ["DROP TABLE metrics_old", "DROP TABLE metrics_older"]) ∧
    ((choosyDatabase []).applyMigration "metrics" twoDrops (⟨true, some []⟩, ())).1 = .ok () ∧
    ((choosyDatabase []).recorded.applyMigration "metrics" twoDrops
        ((⟨true, some []⟩, ()), [])).2.2.filterMap Question.statement? =
      [.startTransaction, .schema "DROP TABLE metrics_old", .schema "DROP TABLE metrics_older",
        .recordVersion 3 "", .commit] ∧
    ((choosyDatabase ["DROP TABLE metrics_old"]).recorded.applyMigration "metrics" twoDrops
        ((⟨true, some []⟩, ()), [])).2.2.filterMap Question.statement? =
      [.startTransaction, .schema "DROP TABLE metrics_old"] := by
  obtain ⟨shape, htemplate, -, h⟩ := statements_keepShape twoDrops
  have hvalid : Options.standard.validate = .ok () := by decide +kernel
  obtain ⟨-, -, hshape, hsends⟩ := h Options.standard hvalid
  have htexts : twoDrops.statements "metrics" =
      ["DROP TABLE metrics_old", "DROP TABLE metrics_older"] := by decide +kernel
  -- The first database comes to the end of the migration, so it has been sent all of it.
  obtain ⟨asked, result, next, hrun, hplain, hsent⟩ :=
    hsends (choosyDatabase []) (⟨true, some []⟩, ()) []
  have hresult : ((choosyDatabase []).applyMigration "metrics" twoDrops
      (⟨true, some []⟩, ())).1.toOption = some () := by decide +kernel
  have hname : Options.standard.tablePrefix = "metrics" := rfl
  rw [hname] at hshape hrun hplain hsent
  rw [hplain] at hresult
  cases hsent with
  | refused => cases hresult
  | all hall =>
      have hlist : shape.map (fun parts => Statement.schema (String.ofList
          ("metrics".toList.intercalate parts))) =
            [.schema "DROP TABLE metrics_old", .schema "DROP TABLE metrics_older"] := by
        have hschema := congrArg (List.map Statement.schema) (hshape.symm.trans htexts)
        rwa [List.map_map] at hschema
      rw [hlist] at hall
      refine ⟨hvalid, ⟨shape, ?_, hshape, htexts⟩, by rw [hplain], ?_, by decide +kernel⟩
      · rw [← htemplate]
        decide +kernel
      · rw [hrun]
        exact hall.filterMap_statement?

/-- A mark that only a prefix completes is no mark. -/
example : Migration.fill "fix".toList "\x7bpre\x7bprefix\x7d\x7d".toList =
    "\x7bprefix\x7d".toList := by
  decide +kernel

end Relational

end MetricLedger
