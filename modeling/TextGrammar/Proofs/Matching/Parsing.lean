import TextGrammar.Matching.Matcher
import TextGrammar.Proofs.Matching.Atomic

/-! # Parsing expressions

What it means for a pattern to match is said here without a matcher: by rules over the pattern,
the text ahead, and the frames of the sequences around it in its rule. There is no place and no
nesting limit, so a pattern that never stops calling rules comes to nothing. -/

namespace TextGrammar.Matching

/-- Why a run stops while a pattern is matched. The rule that an action stands in is not known
before its body is left. -/
inductive Halt where
  | unknownRule (index : Nat)
  | action (rule : Option Nat) (fault : Action.Fault)

namespace Halt

def within (index : Nat) : Halt → Halt
  | .action none fault => .action (some index) fault
  | halt => halt

def error (g : Grammar) (rule : Nat) : Halt → RunError
  | .unknownRule index => .unknownRule index
  | .action inner fault => .action (g.nameOf (inner.getD rule)) fault

theorem error_within (g : Grammar) (index rule : Nat) (halt : Halt) :
    (halt.within index).error g rule = halt.error g index := by
  rcases halt with _ | ⟨_ | _, _⟩ <;> rfl

end Halt

/-- What comes of a pattern: it fails, it matches with a capture and leaves a text, or it stops
the run. -/
inductive Verdict where
  | failed
  | matched (c : Capture) (left : List Char)
  | stopped (halt : Halt)

namespace Verdict

/-- The verdict on the body of a rule, seen from outside. -/
def within (index : Nat) : Verdict → Verdict
  | .stopped halt => .stopped (halt.within index)
  | v => v

/-- Whether a pattern matches. -/
def IsMatch : Verdict → Prop
  | .matched .. => True
  | _ => False

end Verdict

/-- What a sequence yields when all its fields have matched: the record of its bindings, or the
value of its action. -/
inductive Ending where
  | record (bindings : List Binding)
  | value (locals : Nat) (body : Expr)

/-- The verdict at the end of a sequence with its own frame and those around it. -/
def Ending.verdict (own : Action.Frame) (frames : List Action.Frame) (text : List Char) :
    Ending → Verdict
  | .record bindings => .matched (.record (takeFields own bindings)) text
  | .value locals body =>
    match Action.evaluate locals body (own :: frames) with
    | .ok v => .matched (.value v) text
    | .error fault => .stopped (.action none fault)

/-- What is to be matched: a pattern, or the rest of a sequence that has filled some slots of its
own frame. -/
inductive Goal where
  | pattern (p : Pattern)
  | fields (own : Action.Frame) (rest : List Field) (ending : Ending)

section
variable (g : Grammar)

/-- The verdict on a goal in front of a text, inside sequences with some frames. -/
inductive Parses : List Action.Frame → Goal → List Char → Verdict → Prop
  -- A leaf takes some characters, and a literal its own text.
  | leaf {frames l text c taken} (hread : Leaf.read? l text = some (c, taken)) :
    Parses frames (.pattern (.leaf l)) text (.matched c (text.drop taken))
  | noLeaf {frames l text} (hread : Leaf.read? l text = none) :
    Parses frames (.pattern (.leaf l)) text .failed
  | literal {frames word text left} (hfront : text = word.toList ++ left) :
    Parses frames (.pattern (.literal word)) text (.matched (.text word) left)
  | noLiteral {frames word text} (hfront : ¬word.toList <+: text) :
    Parses frames (.pattern (.literal word)) text .failed
  -- A sequence has a frame of its own, and its fields see what those before them have filled.
  | sequence {frames slots fields text v}
    (hfields : Parses frames (.fields (List.replicate slots none) fields
      (.record (fields.filterMap Prod.fst))) text v) :
    Parses frames (.pattern (.sequence slots fields)) text v
  | action {frames slots fields locals body text v}
    (hfields : Parses frames (.fields (List.replicate slots none) fields
      (.value locals body)) text v) :
    Parses frames (.pattern (.action slots fields locals body)) text v
  | done {frames own ending text} :
    Parses frames (.fields own [] ending) text (ending.verdict own frames text)
  | field {frames own b p rest ending text c left v}
    (hp : Parses (own :: frames) (.pattern p) text (.matched c left))
    (hrest : Parses frames (.fields (keepIn own b c) rest ending) left v) :
    Parses frames (.fields own ((b, p) :: rest) ending) text v
  | noField {frames own b p rest ending text v}
    (hp : Parses (own :: frames) (.pattern p) text v) (hv : ¬v.IsMatch) :
    Parses frames (.fields own ((b, p) :: rest) ending) text v
  -- A repetition goes on until its body fails or leaves the text as it is.
  | round {frames p text c left items after}
    (hp : Parses frames (.pattern p) text (.matched c left)) (hleft : left ≠ text)
    (hrest : Parses frames (.pattern (.repetition p)) left (.matched (.list items) after)) :
    Parses frames (.pattern (.repetition p)) text (.matched (.list (c :: items)) after)
  | roundStopped {frames p text c left halt}
    (hp : Parses frames (.pattern p) text (.matched c left)) (hleft : left ≠ text)
    (hrest : Parses frames (.pattern (.repetition p)) left (.stopped halt)) :
    Parses frames (.pattern (.repetition p)) text (.stopped halt)
  | idleRound {frames p text c} (hp : Parses frames (.pattern p) text (.matched c text)) :
    Parses frames (.pattern (.repetition p)) text (.matched (.list []) text)
  | noRound {frames p text} (hp : Parses frames (.pattern p) text .failed) :
    Parses frames (.pattern (.repetition p)) text (.matched (.list []) text)
  | stoppedRound {frames p text halt} (hp : Parses frames (.pattern p) text (.stopped halt)) :
    Parses frames (.pattern (.repetition p)) text (.stopped halt)
  -- The first alternative that does not fail decides, and those behind it are not looked at.
  | alternative {frames p ps text v} (hp : Parses frames (.pattern p) text v)
    (hv : v ≠ .failed) : Parses frames (.pattern (.choice (p :: ps))) text v
  | nextAlternative {frames p ps text v} (hp : Parses frames (.pattern p) text .failed)
    (hps : Parses frames (.pattern (.choice ps)) text v) :
    Parses frames (.pattern (.choice (p :: ps))) text v
  | noAlternative {frames text} : Parses frames (.pattern (.choice [])) text .failed
  -- A negation leaves the text as it is.
  | negation {frames p text} (hp : Parses frames (.pattern p) text .failed) :
    Parses frames (.pattern (.negation p)) text (.matched .unit text)
  | noNegation {frames p text c left} (hp : Parses frames (.pattern p) text (.matched c left)) :
    Parses frames (.pattern (.negation p)) text .failed
  | stoppedNegation {frames p text halt} (hp : Parses frames (.pattern p) text (.stopped halt)) :
    Parses frames (.pattern (.negation p)) text (.stopped halt)
  -- The body of a rule sees no frames.
  | rule {frames index newName r text v} (hr : g.rule? index = some r)
    (hbody : Parses [] (.pattern r.body) text v) :
    Parses frames (.pattern (.rule index newName)) text (v.within index)
  | noRule {frames index newName text} (hr : g.rule? index = none) :
    Parses frames (.pattern (.rule index newName)) text (.stopped (.unknownRule index))

end

variable {g : Grammar} {frames : List Action.Frame} {goal : Goal} {text : List Char}

/-- There is at most one verdict on a goal. -/
theorem Parses.unique {v w : Verdict} (hv : Parses g frames goal text v)
    (hw : Parses g frames goal text w) : v = w := by
  induction hv generalizing w with
  | leaf hread =>
    cases hw with
    | leaf hread' => cases hread.symm.trans hread'; rfl
    | noLeaf hread' => cases hread.symm.trans hread'
  | noLeaf hread =>
    cases hw with
    | leaf hread' => cases hread.symm.trans hread'
    | noLeaf => rfl
  | literal hfront =>
    cases hw with
    | literal hfront' => rw [List.append_cancel_left (hfront.symm.trans hfront')]
    | noLiteral hnone => exact absurd ⟨_, hfront.symm⟩ hnone
  | noLiteral hnone =>
    cases hw with
    | literal hfront => exact absurd ⟨_, hfront.symm⟩ hnone
    | noLiteral => rfl
  | sequence _ ih =>
    cases hw with
    | sequence hfields => exact ih hfields
  | action _ ih =>
    cases hw with
    | action hfields => exact ih hfields
  | done =>
    cases hw with
    | done => rfl
  | field _ _ ihp ihrest =>
    cases hw with
    | field hp hrest =>
      cases ihp hp
      exact ihrest hrest
    | noField hp hv =>
      cases ihp hp
      exact absurd trivial hv
  | noField _ hv ihp =>
    cases hw with
    | field hp =>
      cases ihp hp
      exact absurd trivial hv
    | noField hp => exact ihp hp
  | round _ hleft _ ihp ihrest =>
    cases hw with
    | round hp _ hrest =>
      cases ihp hp
      cases ihrest hrest
      rfl
    | roundStopped hp _ hrest =>
      cases ihp hp
      cases ihrest hrest
    | idleRound hp =>
      cases ihp hp
      exact absurd rfl hleft
    | noRound hp => cases ihp hp
    | stoppedRound hp => cases ihp hp
  | roundStopped _ hleft _ ihp ihrest =>
    cases hw with
    | round hp _ hrest =>
      cases ihp hp
      cases ihrest hrest
    | roundStopped hp _ hrest =>
      cases ihp hp
      exact ihrest hrest
    | idleRound hp =>
      cases ihp hp
      exact absurd rfl hleft
    | noRound hp => cases ihp hp
    | stoppedRound hp => cases ihp hp
  | idleRound _ ihp =>
    cases hw with
    | round hp hleft | roundStopped hp hleft =>
      cases ihp hp
      exact absurd rfl hleft
    | idleRound hp => rfl
    | noRound hp => rfl
    | stoppedRound hp => cases ihp hp
  | noRound _ ihp =>
    cases hw with
    | round hp | roundStopped hp | stoppedRound hp => cases ihp hp
    | idleRound hp | noRound hp => rfl
  | stoppedRound _ ihp =>
    cases hw with
    | round hp | roundStopped hp | idleRound hp | noRound hp => cases ihp hp
    | stoppedRound hp => exact ihp hp
  | alternative _ hv ihp =>
    cases hw with
    | alternative hp => exact ihp hp
    | nextAlternative hp => exact absurd (ihp hp) hv
  | nextAlternative _ _ ihp ihps =>
    cases hw with
    | alternative hp hv => exact absurd (ihp hp).symm hv
    | nextAlternative _ hps => exact ihps hps
  | noAlternative =>
    cases hw with
    | noAlternative => rfl
  | negation _ ihp | noNegation _ ihp =>
    cases hw with
    | negation hp | noNegation hp | stoppedNegation hp => first | rfl | cases ihp hp
  | stoppedNegation _ ihp =>
    cases hw with
    | negation hp | noNegation hp => cases ihp hp
    | stoppedNegation hp => exact ihp hp
  | rule hr _ ih =>
    cases hw with
    | rule hr' hbody =>
      cases hr.symm.trans hr'
      rw [ih hbody]
    | noRule hr' => cases hr.symm.trans hr'
  | noRule hr =>
    cases hw with
    | rule hr' => cases hr.symm.trans hr'
    | noRule => rfl

end TextGrammar.Matching
