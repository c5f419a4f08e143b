import LoxKit.CommandLine.Invocation
import LoxKit.Proofs.Relocation.Evaluation
import LoxKit.Proofs.Relocation.Placement

/-!
# Trees before the run

A command line can ask for the trees of a program, which are printed before the program runs. The
text is then read twice, with one report for both times. What is found the first time is forgotten,
and what is printed only stands before what the program prints: exit and console are those of the
run alone. There is one exception. With as many issues as the limit allows, the first reading ends
the command, and the program neither runs nor is said to be wrong.

Headlines:
* `Request.ofArguments_printTree`: what an option more asks for.
* `Report.Hushed`: what keeps silent unless it is to be verbose.
* `Session.run_printed`: a run behind what was printed before.
* **`CommandLine.trees_come_first`**: a command line with the trees, and the same without them.
* `CommandLine.trees_escape`: where the two end differently.
-/

namespace LoxKit

/-! ## Arguments -/

namespace CommandLine

/-- The options with the trees printed besides. -/
def Options.withTrees (o : Options) : Options :=
  { o with printTree := true }

/-- What is asked for, with the trees printed besides if a program is. -/
def Request.withTrees : Request → Request
  | .go o => .go o.withTrees
  | .help => .help
  | .refuse error => .refuse error

theorem Options.switchOn_withTrees (o : Options) (s : Switch) :
    o.withTrees.switchOn s = (o.switchOn s).withTrees := by
  cases s with
  | check | printTree | verbose | help | maxIssues => rfl

theorem Options.foldl_switchOn_withTrees (switches : List Switch) (o : Options) :
    switches.foldl Options.switchOn o.withTrees =
      (switches.foldl Options.switchOn o).withTrees := by
  induction switches generalizing o with
  | nil => rfl
  | cons s switches ih => rw [List.foldl_cons, List.foldl_cons, switchOn_withTrees, ih]

theorem Options.switchOnAll_withTrees (o : Options) (switches : List Switch) :
    o.withTrees.switchOnAll switches = (o.switchOnAll switches).map Options.withTrees := by
  unfold switchOnAll
  rw [foldl_switchOn_withTrees]
  split
  · rfl
  · rfl

/-- An option of its own changes nothing in how the other arguments are taken. -/
theorem takeArguments_withTrees (o : Options) (left : List String) (as : List Argument) :
    takeArguments o.withTrees left as = (takeArguments o left as).withTrees := by
  induction o, left, as using takeArguments.induct (fun o left value rest =>
    takeArguments.takeLimit o.withTrees left value rest =
      (takeArguments.takeLimit o left value rest).withTrees) with
  | case1 o left value rest hk =>
    unfold takeArguments.takeLimit
    rw [hk]
    rfl
  | case2 o left value rest k hk ih =>
    unfold takeArguments.takeLimit
    rw [hk]
    exact ih
  | case3 o =>
    unfold takeArguments
    rfl
  | case4 o left h =>
    unfold takeArguments
    rw [if_neg h, if_neg h]
    rfl
  | case5 o left _ _ h ih | case8 o left _ h ih =>
    unfold takeArguments
    rw [if_pos h, if_pos (show o.withTrees.program.isSome = true from h)]
    exact ih
  | case6 o left _ h _ ih | case9 o left _ h ih =>
    unfold takeArguments
    rw [if_neg h, if_neg (show ¬o.withTrees.program.isSome = true from h)]
    exact ih
  | case7 o left text h rest hrest ih =>
    unfold takeArguments
    rw [if_neg h, if_neg (show ¬o.withTrees.program.isSome = true from h)]
    split
    · exact absurd rfl (hrest _)
    · exact ih
  | case10 o left _ _ ih | case14 o left _ _ ih | case15 o left _ _ ih =>
    unfold takeArguments
    exact ih
  | case11 o left s letters rest e h =>
    unfold takeArguments
    rw [h]
    rfl
  | case12 o left s letters rest switches h hnone =>
    unfold takeArguments
    simp only [h, Options.switchOnAll_withTrees, hnone]
    rfl
  | case13 o left s letters rest switches h o' hsome ih =>
    unfold takeArguments
    simp only [h, Options.switchOnAll_withTrees, hsome]
    exact ih
  | case16 o left tail h =>
    rw [takeArguments, takeArguments]
    · rfl
    · exact h
    · exact h
  | case17 o left s value tail hs =>
    rw [takeArguments, takeArguments]
    · rfl
    · exact hs
    · exact hs
  | case18 o left s rest hrest hs hnone =>
    rw [takeArguments, takeArguments, Options.switchOnAll_withTrees, hnone]
    · rfl
    · exact hrest
    · exact hs
    · exact hrest
    · exact hs
  | case19 o left s rest hrest hs o' hsome ih =>
    rw [takeArguments, takeArguments, Options.switchOnAll_withTrees, hsome]
    · exact ih
    · exact hrest
    · exact hs
    · exact hrest
    · exact hs

/-- The option for the trees before other arguments asks for what they ask for, and the trees. -/
theorem Request.ofArguments_printTree (arguments : List String) :
    Request.ofArguments ("-p" :: arguments) = (Request.ofArguments arguments).withTrees := by
  have hoption : Argument.ofText "-p" = .ok (.short .printTree none) := by rfl
  have htexts : Argument.ofTexts ("-p" :: arguments) =
      (Argument.ofTexts arguments).map (.short .printTree none :: ·) := by
    rw [Argument.ofTexts, if_neg (by decide), hoption]
    cases Argument.ofTexts arguments with
    | ok as => rfl
    | error e => rfl
  unfold Request.ofArguments
  rw [htexts]
  cases Argument.ofTexts arguments with
  | error e => rfl
  | ok as =>
    show takeArguments .none [] (.short .printTree none :: as) =
      (takeArguments .none [] as).withTrees
    rw [← takeArguments_withTrees, takeArguments]
    rfl

end CommandLine

/-! ## The console -/

namespace Report

/-- The second report came out of the first, and nothing was written to the console in between
unless it is verbose. -/
structure Hushed (r r' : Report) : Prop where
  verbose : r'.verbose = r.verbose
  console : r.verbose = false → r'.console = r.console

namespace Hushed

variable {r r₁ r₂ : Report}

theorem refl (r : Report) : Hushed r r :=
  ⟨rfl, fun _ => rfl⟩

theorem trans (h : Hushed r r₁) (h' : Hushed r₁ r₂) : Hushed r r₂ :=
  ⟨h'.verbose.trans h.verbose, fun hq => (h'.console (h.verbose.trans hq)).trans (h.console hq)⟩

theorem info (r : Report) (line : String) : Hushed r (r.info line) := by
  unfold Report.info
  by_cases hv : r.verbose = true
  · rw [if_pos hv]
    exact ⟨rfl, fun hq => absurd (hv.symm.trans hq) (by simp)⟩
  · rw [if_neg hv]
    exact .refl r

theorem noteAll (r : Report) (is : List Issue) : Hushed r (r.noteAll is).1 := by
  induction is generalizing r with
  | nil => exact .refl r
  | cons i is ih =>
    have hnote : Hushed r (r.note i) := ⟨rfl, fun _ => rfl⟩
    unfold Report.noteAll
    dsimp only
    split
    · exact hnote
    · exact hnote.trans (ih (r.note i))

theorem readText (r : Report) (text : String) : Hushed r (r.readText text).1 := by
  unfold Report.readText
  dsimp only
  have hscanned := noteAll r (Tokens.ofText text).issues
  rcases hn : r.noteAll (Tokens.ofText text).issues with ⟨r₁, _ | _⟩
  all_goals
    rw [hn] at hscanned
    dsimp only at hscanned ⊢
  · have hinfo := hscanned.trans
      (info r₁ ("Scanned " ++ toString (Tokens.ofText text).all.length ++ " tokens"))
    have hparsed := hinfo.trans (noteAll _ (Grammar.parse (Tokens.ofText text)).issues)
    split
    all_goals
      rename_i hn'
      rw [hn'] at hparsed
      exact hparsed
  · exact hscanned

theorem link (r : Report) (stmts : List (Stmt Unit)) : Hushed r (r.link stmts).1 := by
  have hlinked := noteAll r (linkProgram stmts).issues
  unfold Report.link
  dsimp only
  split
  all_goals
    rename_i hn
    rw [hn] at hlinked
    exact hlinked

theorem compile (r : Report) (text : String) : Hushed r (r.compile text).1 := by
  have hread := readText r text
  unfold Report.compile
  rcases hr : r.readText text with ⟨r₁, _ | stmts⟩
  all_goals
    rw [hr] at hread
    dsimp only at hread ⊢
  · exact hread
  · split
    · exact hread
    · have hinfo := hread.trans
        (info r₁ ("Parsed " ++ toString stmts.length ++ " top-level statements"))
      have hlinked := hinfo.trans (link _ stmts)
      rcases hl : (r₁.info ("Parsed " ++ toString stmts.length ++
        " top-level statements")).link stmts with ⟨r₂, _ | program⟩
      all_goals
        rw [hl] at hlinked
        dsimp only at hlinked ⊢
      · exact hlinked
      · split
        · exact hlinked
        · exact hlinked.trans (info _ _)

theorem run (session : Session) (h : Host) (fuel : Nat) (text : String) (checkOnly : Bool) :
    Hushed session.report (session.run h fuel text checkOnly).1.report := by
  have hcompiled := compile (session.report.reset.setSource text.toList) text
  have hstart : Hushed session.report (session.report.reset.setSource text.toList) :=
    ⟨rfl, fun _ => rfl⟩
  unfold Session.run
  rcases hc : (session.report.reset.setSource text.toList).compile text with
    ⟨report, _ | phase | program⟩
  all_goals
    rw [hc] at hcompiled
    simp only [hc]
  · exact hstart.trans hcompiled
  · exact (hstart.trans hcompiled).trans (info _ _)
  · split
    · exact hstart.trans hcompiled
    · unfold Session.execute
      have hfailed : ∀ f, Hushed report (report.fail f) := fun _ => ⟨rfl, fun _ => rfl⟩
      dsimp only
      cases runProgram h fuel program session.store with
      | done | broken | unfinished => exact hstart.trans hcompiled
      | failed error line s => exact (hstart.trans hcompiled).trans (hfailed _)

end Hushed

/-- Issues are written to the console one below the other. -/
theorem complain_console {r : Report} (hfailure : r.failure = none) :
    r.complain.console = r.console ++ String.join (r.notices.map fun n => n.text ++ "\n") := by
  have hsay : ∀ (ns : List Notice) (r : Report),
      (ns.foldl (fun r n => r.say n.text) r).console =
        r.console ++ String.join (ns.map fun n => n.text ++ "\n") := by
    intro ns
    induction ns with
    | nil => exact fun r => (String.append_empty (s := r.console)).symm
    | cons n ns ih =>
      intro r
      rw [List.foldl_cons, ih, List.map_cons, String.join_cons, ← String.append_assoc]
      simp only [say, String.append_assoc]
  unfold complain
  rw [hfailure]
  exact hsay r.notices r

/-- What reading a text comes to with a report that has nothing in it and is not verbose. Once it is
reset, the report has nothing in it again. -/
theorem readText_empty (limit : Option Int) (text : String) :
    ∃ r, ((Report.empty false limit).setSource text.toList).readText text =
        (r, if reached limit (issuesOfReading text).length = true then none
          else some (Grammar.parse (Tokens.ofText text)).statements) ∧
      r.console = "" ∧ r.reset = (Report.empty false limit).setSource text.toList := by
  have hempty : (Report.empty false limit).setSource text.toList =
      ((Report.empty false limit).setSource text.toList).filled [] "" := by
    unfold filled
    rw [List.map_nil, admitted_eq_nil.mpr rfl]
    rfl
  obtain ⟨console, hread⟩ :=
    ((Report.empty false limit).setSource text.toList).readText_filled text ""
  have hhushed := Hushed.readText ((Report.empty false limit).setSource text.toList) text
  rw [← hempty] at hread
  rw [hread] at hhushed
  have hconsole : console = "" := hhushed.console rfl
  subst hconsole
  exact ⟨_, hread, rfl, rfl⟩

end Report

/-! ## Output -/

/-- Everything where it is, behind what was printed before. -/
def Relocation.printed (before : String) : Relocation where
  pos := id
  line := id
  line_pos _ := rfl
  before := before

namespace Session

/-- A session that has printed something before. -/
def printed (before : String) (session : Session) : Session :=
  ⟨session.report, (Relocation.printed before).store session.store⟩

/-- What was printed before a text is run only stands before what the text prints. -/
theorem run_printed (h : Host) (fuel : Nat) {before text : String} {session : Session}
    {report : Report}
    (hreport : report.reset.setSource text.toList = session.report.reset.setSource text.toList)
    (checkOnly : Bool) :
    ({ session.printed before with report } : Session).run h fuel text checkOnly =
      ((session.run h fuel text checkOnly).1.printed before,
        (session.run h fuel text checkOnly).2) := by
  unfold run
  rw [hreport]
  rcases hc : (session.report.reset.setSource text.toList).compile text with
    ⟨compiled, _ | phase | program⟩
  all_goals simp only [hc]
  · rfl
  · rfl
  · cases checkOnly with
    | true => rfl
    | false =>
      obtain ⟨stmts, hclean, rfl⟩ := CleanText.of_ready hc
      have hmove := runProgram_move h (.printed before) fuel (linkProgram stmts).tree session.store
      have hid : (linkProgram stmts).tree.map (Stmt.move id) = (linkProgram stmts).tree := by
        rw [← hclean.programOf_eq]
        exact hclean.program_move_id
      simp only [Relocation.printed, hid] at hmove
      simp only [Bool.false_eq_true, if_false, execute, printed, Relocation.printed, hmove]
      cases runProgram h fuel (linkProgram stmts).tree session.store with
      | done | failed | broken | unfinished => rfl

end Session

/-! ## Invocations -/

namespace CommandLine

/-- The trees of the statements that are read from a text, each on a line. -/
def treesOf (text : String) : String :=
  String.join ((Grammar.parse (Tokens.ofText text)).statements.map fun stmt => stmt.render ++ "\n")

/-- A result behind what was printed before. -/
def Result.behind (before : String) (r : Result) : Result :=
  { r with output := before ++ r.output }

section Quiet

variable {w : World} {o : Options} {source : Source} {bytes : List UInt8} {text : String}

/-- A run of a file that can be read, by a session that is not verbose. -/
theorem runSource_of_text {session : Session} (hquiet : session.report.verbose = false)
    (hbytes : source.content = .ok bytes) (htext : readText bytes = .ok text) (check : Bool) :
    runSource w session source check =
      let (after, status) := session.run w.host w.fuel text check
      let report :=
        if status ≠ .ok then after.report.complain
        else if check then after.report.say "Looks plausible to me."
        else after.report
      .ofSession (.code status.code) { after with report } := by
  have hinfo : session.report.info ("Loading " ++ source.path) = session.report := by
    unfold Report.info
    rw [hquiet]
    rfl
  unfold runSource
  simp only [hinfo, hbytes, htext]

/-- What was printed before a file is run only stands before what its program prints. -/
theorem runSource_printed {session : Session} {report : Report} (before : String)
    (hquiet : session.report.verbose = false) (hquiet' : report.verbose = false)
    (hreport : report.reset.setSource text.toList = session.report.reset.setSource text.toList)
    (hbytes : source.content = .ok bytes) (htext : readText bytes = .ok text) (check : Bool) :
    runSource w { session.printed before with report } source check =
      (runSource w session source check).behind before := by
  rw [runSource_of_text hquiet hbytes htext, runSource_of_text hquiet' hbytes htext,
    Session.run_printed w.host w.fuel hreport]
  rfl

/-- What printing the trees of a file comes to that can be read. -/
theorem printTrees_start (limit : Option Int) (hbytes : source.content = .ok bytes)
    (htext : readText bytes = .ok text) :
    (Report.reached limit (Report.issuesOfReading text).length = false →
      printTrees (.start false limit) source =
        .done { (Session.start false limit).printed (treesOf text) with
          report := (Report.empty false limit).setSource text.toList }) ∧
      (Report.reached limit (Report.issuesOfReading text).length = true →
        ∃ r, printTrees (.start false limit) source =
            .escaped .tooManyIssues ⟨r, .initial⟩ ∧ r.console = "") := by
  obtain ⟨r, hread, hconsole, hreset⟩ := Report.readText_empty limit text
  have hstart : (Session.start false limit).report.setSource text.toList =
    (Report.empty false limit).setSource text.toList := rfl
  unfold printTrees
  simp only [hbytes, htext, hstart, hread]
  constructor
  · intro h
    have hstore := Relocation.store_initial (.printed (treesOf text))
    have houtput : Store.initial.output ++ treesOf text = treesOf text := String.empty_append
    simp only [h, Bool.false_eq_true, if_false, hreset, Session.start, Session.printed, hstore]
    rw [← treesOf, houtput]
    rfl
  · intro h
    simp only [h, if_true]
    exact ⟨r, rfl, hconsole⟩

/-- A file with as many issues in its text as the limit allows is not run. -/
theorem runSource_of_reached {limit : Option Int} (hbytes : source.content = .ok bytes)
    (htext : readText bytes = .ok text)
    (hreached : Report.reached limit (Report.issuesOfReading text).length = true) (check : Bool) :
    runSource w (.start false limit) source check =
      ⟨.code Status.dataError.code, "",
        String.join ((Report.admitted limit (noticesOf text)).map fun n => n.text ++ "\n")⟩ := by
  have hreading : Report.issuesOfReading text ≠ [] := by
    intro hnil
    rw [hnil, List.length_nil, Report.not_reached_zero] at hreached
    exact absurd hreached (by simp)
  have hissues : Report.issuesOf text ≠ [] := by
    unfold Report.issuesOf
    rwa [if_neg hreading]
  obtain ⟨console, hrun⟩ := (Session.start false limit).run_of_issues w.host w.fuel hissues check
  have hhushed := Report.Hushed.run (.start false limit) w.host w.fuel text check
  rw [hrun] at hhushed
  have hconsole : console = "" := hhushed.console rfl
  subst hconsole
  rw [runSource_of_text rfl hbytes htext, hrun]
  simp only [ne_eq, reduceCtorEq, not_false_eq_true, if_true, Result.ofSession]
  rw [Report.complain_console rfl]
  exact congrArg _ String.empty_append

end Quiet

section Invoking

variable {w : World} {arguments : List String} {o : Options} {program text : String}
  {bytes : List UInt8} (hgo : Request.ofArguments arguments = .go o)
  (hprogram : o.program = some program) (hquiet : o.verbose = false)
  (hbytes : (w.source program).content = .ok bytes) (htext : readText bytes = .ok text)

include hgo hprogram hquiet

theorem invoke_plain (hplain : o.printTree = false) :
    invoke w arguments = runSource w (.start false o.maxIssues) (w.source program) o.check := by
  unfold invoke
  rw [hgo]
  simp only [serve, hprogram, runProgramFile, hplain, hquiet, Bool.false_eq_true, if_false]

include hbytes htext

/-- A command line with the trees, of a text with fewer issues than the limit. -/
theorem invoke_within (htrees : o.printTree = true)
    (h : Report.reached o.maxIssues (Report.issuesOfReading text).length = false) :
    invoke w arguments = (runSource w (.start false o.maxIssues) (w.source program) o.check).behind
      (treesOf text) := by
  unfold invoke
  rw [hgo]
  simp only [serve, hprogram, runProgramFile, hquiet, htrees, if_true,
    (printTrees_start o.maxIssues hbytes htext).1 h]
  exact runSource_printed (treesOf text) rfl rfl rfl hbytes htext o.check

/-- A command line with the trees, of a text with as many issues as the limit, or more. -/
theorem invoke_beyond (htrees : o.printTree = true)
    (h : Report.reached o.maxIssues (Report.issuesOfReading text).length = true) :
    invoke w arguments = ⟨.tooManyIssues, "", ""⟩ := by
  obtain ⟨r, hescaped, hconsole⟩ := (printTrees_start o.maxIssues hbytes htext).2 h
  unfold invoke
  rw [hgo]
  simp only [serve, hprogram, runProgramFile, hquiet, htrees, if_true, hescaped, Result.ofSession,
    hconsole]
  rfl

end Invoking

/-- **The trees come first, and nothing else changes.** Take a command line about a file that can be
read, without the trees and not verbose, and another that asks for the same and the trees. If
reading the text finds fewer issues than the limit, the two end with the same exit and the same
console, and the output is that without the trees behind the trees of the statements that are read.
If the limit is reached, the command line with the trees is left at once, with nothing printed and
nothing said, while the other ends with the exit for a text with issues and has these on the
console. -/
theorem trees_come_first (w : World) {arguments : List String} {o : Options} {program : String}
    {bytes : List UInt8} {text : String} (hgo : Request.ofArguments arguments = .go o)
    (hprogram : o.program = some program) (hplain : o.printTree = false)
    (hquiet : o.verbose = false) (hbytes : (w.source program).content = .ok bytes)
    (htext : readText bytes = .ok text) :
    Request.ofArguments ("-p" :: arguments) = .go o.withTrees ∧
      ∀ more, Request.ofArguments more = .go o.withTrees →
        (Report.reached o.maxIssues (Report.issuesOfReading text).length = false →
          invoke w more = (invoke w arguments).behind (treesOf text)) ∧
        (Report.reached o.maxIssues (Report.issuesOfReading text).length = true →
          invoke w more = ⟨.tooManyIssues, "", ""⟩ ∧
            invoke w arguments = ⟨.code Status.dataError.code, "", String.join
              ((Report.admitted o.maxIssues (noticesOf text)).map fun n => n.text ++ "\n")⟩) := by
  refine ⟨by rw [Request.ofArguments_printTree, hgo]; rfl, fun more hmore => ?_⟩
  have hwithout := invoke_plain (w := w) hgo hprogram hquiet hplain
  constructor
  · intro h
    rw [hwithout]
    exact invoke_within (o := o.withTrees) hmore hprogram hquiet hbytes htext rfl h
  · intro h
    exact ⟨invoke_beyond (o := o.withTrees) hmore hprogram hquiet hbytes htext rfl h,
      hwithout.trans (runSource_of_reached hbytes htext h o.check)⟩

/-- A world in which every path leads to the same program, of plain characters. -/
def worldOf (text : String) : World where
  host := ⟨fun _ => 0, 1000⟩
  fuel := 9
  source path := ⟨path, .ok (text.toList.map fun c => c.toNat.toUInt8)⟩
  lines := []

/-- Of `print nil; print ;` the tree of the first statement is printed, and the second one has an
issue as it has without the tree. -/
theorem trees_come_first_broken :
    Request.ofArguments ["p.lox"] = .go ⟨some "p.lox", false, false, false, none⟩ ∧
      readText ("print nil; print ;".toList.map fun c => c.toNat.toUInt8) =
        .ok "print nil; print ;" ∧
      invoke (worldOf "print nil; print ;") ["-p", "p.lox"] =
        (invoke (worldOf "print nil; print ;") ["p.lox"]).behind "(print nil)\n" := by
  have hgo : Request.ofArguments ["p.lox"] = .go ⟨some "p.lox", false, false, false, none⟩ := by
    cbv
  have htext : readText ("print nil; print ;".toList.map fun c => c.toNat.toUInt8) =
      .ok "print nil; print ;" := by
    rfl
  have htrees : treesOf "print nil; print ;" = "(print nil)\n" := by cbv
  obtain ⟨hmore, hfirst⟩ :=
    trees_come_first (worldOf "print nil; print ;") hgo rfl rfl rfl rfl htext
  refine ⟨hgo, htext, ?_⟩
  rw [← htrees]
  exact (hfirst _ hmore).1 rfl

/-- With a limit of one issue the trees of `print ;` are not printed, the file is not run, and its
issue is not said; without them the command ends with the exit for a text with issues. -/
theorem trees_escape :
    invoke (worldOf "print ;") ["-p", "--max-issues", "1", "p.lox"] = ⟨.tooManyIssues, "", ""⟩ ∧
      (invoke (worldOf "print ;") ["--max-issues", "1", "p.lox"]).exit = .code 65 := by
  have htext : readText ("print ;".toList.map fun c => c.toNat.toUInt8) = .ok "print ;" := by rfl
  have hreached : Report.reached (some 1) (Report.issuesOfReading "print ;").length = true := by
    decide +kernel
  constructor
  · have hgo : Request.ofArguments ["-p", "--max-issues", "1", "p.lox"] =
        .go ⟨some "p.lox", false, true, false, some 1⟩ := by cbv
    exact invoke_beyond hgo rfl rfl rfl htext rfl hreached
  · have hgo : Request.ofArguments ["--max-issues", "1", "p.lox"] =
        .go ⟨some "p.lox", false, false, false, some 1⟩ := by cbv
    rw [invoke_plain hgo rfl rfl rfl, runSource_of_reached rfl htext hreached]
    rfl

end CommandLine

end LoxKit
