import Mathlib.Data.List.Forall2
import ExprText.Proofs.Frame.Basic

/-! # Extension nodes and the frame

The maker of an extension node decides what it does when it is shown. A script is such a decision: it
looks at the rendering, asks for names, and shows nodes, as itself or as bodies and arguments, and goes
on with what came of it, also where that was a fault. Whatever the scripts of a tree do and whichever
renderers a registry has for its nodes, a rendering leaves its session with the path, the scopes, the
names and the remembered texts that it found. -/

namespace ExprText

open RenderM

/-! ### Scripts -/

inductive Script (α : Type) where
  | done (answer : α)
  | fail (fault : Fault)
  /-- Any question about the rendering that changes nothing. -/
  | look (next : Env → Session → Script α)
  | ask (request : NameRequest) (next : String → Script α)
  | text (e : Expr) (next : Except Fault String → Script α)
  | body (e : Expr) (next : Except Fault Body → Script α)
  | arguments (args : List Expr) (params : Option (List Parameter))
    (next : Except Fault (List String) → Script α)
  | parameters (args : List Expr) (params : Option (List Parameter))
    (next : Except Fault String → Script α)

namespace Script
variable {α β : Type}

def run (visit : Visit) : Script α → RenderM α
  | .done answer => pure answer
  | .fail fault => throw fault
  | .look next => do (next (← read) (← get)).run visit
  | .ask request next => do (next (← RenderM.ask request)).run visit
  | .text e next => do (next (← observing (visit e))).run visit
  | .body e next => do (next (← observing (RenderM.body visit e))).run visit
  | .arguments args params next => do
    (next (← observing (RenderM.arguments visit args params))).run visit
  | .parameters args params next => do
    (next (← observing (RenderM.parameters visit args params))).run visit

def refuse (cause : Cause) : Script α :=
  .look fun _ s => .fail (.malformed s.currentKind cause)

/-- Ends with what came of a step. -/
def finish : Except Fault α → Script α
  | .ok answer => .done answer
  | .error fault => .fail fault

/-- Goes on with an answer; a fault ends the script. -/
def orFail (next : β → Script α) : Except Fault β → Script α
  | .ok answer => next answer
  | .error fault => .fail fault

/-- Does one step for each of several nodes. -/
def each (step : Expr → (Except Fault β → Script α) → Script α) :
    List Expr → (List β → Script α) → Script α
  | [], next => next []
  | e :: es, next => step e (orFail fun b => each step es fun bs => next (b :: bs))

end Script

/-- What the forms of extension nodes do that come with the library. -/
def ExtensionForm.script (e : Expr) (nodes : List Expr) : ExtensionForm → Script String
  | .comment text => .done (Text.asComment text)
  | .await => .each .text nodes fun texts => .done (Text.join " " ("await" :: texts))
  | .verbatim text => .done text
  | .reject reason => .refuse (.refused reason)
  | .parent => .look fun _ s => .done (Render.kindText s.parent?)
  | .selfParent => .look fun _ s => .done (Render.kindText (s.parentOf? e))
  | .grandparent => .look fun _ s => .done (Render.kindText (s.parent?.bind s.parentOf?))
  | .parentOfFirst => .look fun _ s => .done (Render.kindText (nodes.head?.bind s.parentOf?))
  | .ancestors => .look fun _ s => .done (Text.join " < " (s.path.map (·.kind.text)))
  | .arguments params => .parameters nodes params .finish
  | .bodies => .each .body nodes fun bodies => .done (String.join (bodies.map Body.bracketed))
  | .unknown name => .refuse (.unknownExtension name)

def Expr.script : Expr → Script String
  | e@(.extension _ form _ nodes) => form.script e nodes
  | _ => .refuse (.expected .extension)

/-! ### Renderings with scripts -/

/-- Shows a node the way of a renderer; an extension node does what its script says. -/
def Renderer.renderWith (script : Expr → Script String) (visit : Visit) (e : Expr) :
    Renderer → RenderM String
  | .extension =>
    match e with
    | .extension .. => (script e).run visit
    | _ => refuse (.expected .extension)
  | r => r.render visit e

/-- Shows a node like `visit`, with a script for each extension node. -/
def visitWith (script : Expr → Script String) : Nat → Visit
  | 0, _ => refuse .tooDeep
  | depth + 1, e => do
    let s ← get
    match s.memo.lookup (s.keyOf e) with
    | some text => return text
    | none =>
      match (← read).registry.find? e.kind with
      | none => throw (.unsupported e.kind)
      | some registration =>
        let text ← within e (registration.renderer.renderWith script (visitWith script depth) e)
        modify (Session.remember (s.keyOf e) text)
        return text

theorem runOn_visitWith (script : Expr → Script String) (depth : Nat) (e : Expr) (env : Env)
    (s : Session) : (visitWith script (depth + 1) e).runOn env s =
      match s.memo.lookup (s.keyOf e), env.registry.find? e.kind with
      | some text, _ => (.ok text, s)
      | none, none => (.error (.unsupported e.kind), s)
      | none, some r =>
        match (r.renderer.renderWith script (visitWith script depth) e).runOn env (s.push e) with
        | (.ok text, t) => (.ok text, t.pop.remember (s.keyOf e) text)
        | (.error fault, t) => (.error fault, t.pop) := by
  rw [visitWith, runOn_bind_ok runOn_get]
  cases s.memo.lookup (s.keyOf e) with
  | some text => rfl
  | none =>
    dsimp only
    rw [runOn_bind_ok runOn_read]
    cases env.registry.find? e.kind with
    | none => rfl
    | some r =>
      dsimp only
      rw [runOn_bind, within, runOn_between]
      rcases (r.renderer.renderWith script (visitWith script depth) e).runOn env (s.push e) with
        ⟨_ | text, t⟩ <;> rfl

/-! ### The scripts of the library -/

theorem RenderM.runOn_observing {α : Type} (x : RenderM α) (env : Env) (s : Session) :
    (observing x : RenderM (Except Fault α)).runOn env s =
      (.ok (x.runOn env s).1, (x.runOn env s).2) := by
  rcases hx : x.runOn env s with ⟨r, t⟩
  have hx' : x env s = (r, t) := hx
  cases r <;>
    simp [runOn, observing, tryCatch, tryCatchThe, MonadExceptOf.tryCatch, ReaderT.run, ExceptT.run,
      StateT.run, ExceptT.tryCatch, ExceptT.mk, bind, ReaderT.bind, ExceptT.bind, StateT.bind, hx',
      ExceptT.bindCont]
  all_goals rfl

theorem RenderM.ext {α : Type} {x y : RenderM α} (h : ∀ env s, x.runOn env s = y.runOn env s) :
    x = y := by
  funext env s
  exact h env s

section Library
variable {α β : Type} {visit : Visit}

/-- To look at what came of an action and to fail where it failed is to go on after it. -/
theorem Script.run_orFail (x : RenderM β) (next : β → Script α) :
    (observing x >>= fun r => (Script.orFail next r).run visit) = x >>= fun b => (next b).run visit := by
  apply RenderM.ext
  intro env s
  rw [runOn_bind_ok (runOn_observing x env s), runOn_bind]
  rcases x.runOn env s with ⟨_ | b, t⟩ <;> rfl

theorem Script.run_each {step : Expr → (Except Fault β → Script α) → Script α}
    {f : Expr → RenderM β}
    (h : ∀ e next, (step e next).run visit = observing (f e) >>= fun r => (next r).run visit) :
    ∀ (es : List Expr) (next : List β → Script α),
      (Script.each step es next).run visit = es.mapM f >>= fun bs => (next bs).run visit
  | [], next => by
    rw [Script.each, List.mapM_nil, pure_bind]
  | e :: es, next => by
    rw [Script.each, h, Script.run_orFail, List.mapM_cons]
    simp only [bind_assoc, pure_bind, run_each h es]

theorem ExtensionForm.run_script (e : Expr) (nodes : List Expr) (form : ExtensionForm) :
    (form.script e nodes).run visit = Render.formText visit e nodes form := by
  cases form with
  | await =>
    rw [script, Script.run_each (f := visit) fun _ _ => rfl]
    rfl
  | bodies =>
    rw [script, Script.run_each (f := RenderM.body visit) fun _ _ => rfl]
    rfl
  | arguments params =>
    have hfinish : (Script.finish : Except Fault String → Script String) = Script.orFail .done := by
      funext r
      cases r <;> rfl
    rw [script, hfinish]
    exact (Script.run_orFail _ _).trans (bind_pure _)
  | _ => rfl

theorem Renderer.renderWith_script (e : Expr) (r : Renderer) :
    r.renderWith Expr.script visit e = r.render visit e := by
  cases r with
  | extension =>
    cases e with
    | extension _ form _ nodes => exact form.run_script _ nodes
    | _ => rfl
  | _ => rfl

/-- A rendering is the rendering with the scripts of the library. -/
theorem visitWith_script : ∀ depth : Nat, visitWith Expr.script depth = ExprText.visit depth
  | 0 => rfl
  | depth + 1 => by
    funext e
    unfold visitWith ExprText.visit
    refine bind_congr fun s => ?_
    cases s.memo.lookup (s.keyOf e) with
    | some text => rfl
    | none =>
      refine bind_congr fun env => ?_
      cases env.registry.find? e.kind with
      | none => rfl
      | some r =>
        dsimp only
        rw [Renderer.renderWith_script, visitWith_script depth]

end Library

/-! ### What renderings keep -/

namespace Keeps
variable {α : Type} {declares : Bool}

theorem observing {x : RenderM α} (hx : Keeps declares x) :
    Keeps declares (observing x : RenderM (Except Fault α)) := by
  intro env s hs
  rw [runOn_observing]
  exact hx env s hs

theorem script {visit : Visit} (hv : ∀ declares c, Keeps declares (visit c)) (p : Script α) :
    Keeps declares (p.run visit) := by
  induction p with
  | done answer => exact pure answer
  | fail fault => exact throw fault
  | look next ih => exact read.bind fun env => get.bind fun s => ih env s
  | ask request next ih => exact (ask request).bind ih
  | text e next ih => exact (hv _ e).observing.bind ih
  | body e next ih => exact (body hv e).observing.bind ih
  | arguments args params next ih => exact (arguments hv args params).observing.bind ih
  | parameters args params next ih => exact (parameters hv args params).observing.bind ih

/-- No renderer leaves a trace of the node it is given, be it of a kind that it can show or not. -/
theorem renderWith {visit : Visit} (hv : ∀ declares c, Keeps declares (visit c))
    (scripts : Expr → Script String) (e : Expr) (r : Renderer) :
    Keeps declares (r.renderWith scripts visit e) := by
  cases r with
  | constant => exact constant e
  | «variable» => exact variableName e
  | default => exact Keeps.default e
  | extension =>
    cases e with
    | extension => exact script hv _
    | _ => exact refuse _
  | binary => exact binary hv e
  | assign => exact assign hv e
  | unary => exact unary hv e
  | conditional => exact conditional hv e
  | loop => exact loop hv e
  | block => exact block hv e
  | lambda => exact lambda hv e
  | call => exact call hv e
  | member => exact member hv e
  | index => exact index hv e
  | new => exact new hv e
  | shouting => exact shouting e

theorem visitWith (scripts : Expr → Script String) : ∀ (depth : Nat) (declares : Bool) (e : Expr),
    Keeps declares (visitWith scripts depth e)
  | 0, _, _ => refuse _
  | depth + 1, declares, e => by
    intro env s hs
    rw [runOn_visitWith]
    split
    · exact .refl s
    · exact .refl s
    · next r hmemo _ =>
      have hrender : Keeps declares (r.renderer.renderWith scripts (ExprText.visitWith scripts depth) e) :=
        renderWith (visitWith scripts depth) scripts e r.renderer
      have h := hrender env (s.push e) hs
      split
      · next hrun =>
        rw [hrun] at h
        exact h.pop.remember hmemo _
      · next hrun =>
        rw [hrun] at h
        exact h.pop

end Keeps

/-! ### Reachable sessions -/

/-- The sessions that operations lead to from the start of a rendering: a renderer is called for a node
    and comes back, a script runs, scopes are opened and closed, and variables are declared. -/
inductive Session.Reachable (scripts : Expr → Script String) (env : Env) : Session → Prop
  | start (root : Expr) : Reachable scripts env (.start root)
  | enter {s : Session} (e : Expr) : Reachable scripts env s → Reachable scripts env (s.push e)
  | leave {s : Session} : Reachable scripts env s → Reachable scripts env s.pop
  | run {s : Session} (depth : Nat) (p : Script String) : Reachable scripts env s →
    Reachable scripts env ((p.run (visitWith scripts depth)).runOn env s).2
  | openScope {s : Session} : Reachable scripts env s → Reachable scripts env s.openScope
  | closeScope {s : Session} : Reachable scripts env s → Reachable scripts env s.closeScope
  | declare {s : Session} (v : Variable) : Reachable scripts env s →
    Reachable scripts env (s.declare v).2

theorem Session.closeScope_opened {s : Session} (h : s.scopes ≠ []) : s.closeScope.scopes ≠ [] := by
  unfold Session.closeScope
  split
  · exact List.cons_ne_nil _ _
  · exact h

/-- The outermost scope is never closed. -/
theorem Session.Reachable.opened {scripts : Expr → Script String} {env : Env} {s : Session}
    (h : s.Reachable scripts env) : s.scopes ≠ [] := by
  induction h with
  | start root => exact List.cons_ne_nil _ _
  | enter e _ ih => exact ih
  | leave _ ih => exact ih
  | run depth p _ ih =>
    have hscript : Keeps true (p.run (visitWith scripts depth)) :=
      Keeps.script (Keeps.visitWith scripts depth) p
    exact (hscript env _ ih).scopes.opened ih
  | openScope _ _ => exact List.cons_ne_nil _ _
  | closeScope _ ih => exact Session.closeScope_opened ih
  | @declare s v _ ih => exact (s.scopesKept_declare v).opened ih

/-- Whatever happened in a session before, to show a tree leaves it, however that ends, on the path and
    in the scopes where it was, with all names and all texts that it had. This holds for the scripts of
    the library and for all others, and for every registry. -/
theorem rendering_keeps_frame :
    visitWith Expr.script = visit ∧
      ∀ (scripts : Expr → Script String) (env : Env) (s : Session), s.Reachable scripts env →
        ∀ (depth : Nat) (e : Expr) (result : Except Fault String) (t : Session),
          (visitWith scripts depth e).runOn env s = (result, t) →
            t.path = s.path ∧ t.scopes = s.scopes ∧ s.names.Extends t.names ∧
              ∀ key text, s.memo.lookup key = some text → t.memo.lookup key = some text := by
  refine ⟨funext visitWith_script, ?_⟩
  intro scripts env s hs depth e result t hrun
  have h := Keeps.visitWith scripts depth false e env s hs.opened
  rw [hrun] at h
  exact ⟨h.path, h.scopes.all rfl, h.names, h.memo⟩

section Failure

private def counter : Variable := ⟨0, some "i", .int⟩

/-- A node that shows the first of its nodes and, if that fails, says so and goes on. -/
private def guarded : Expr → Script String
  | .extension _ _ _ (e :: _) => .text e fun
    | .ok text => .done text
    | .error fault => .done fault.message
  | _ => .refuse (.expected .extension)

/-- The block declares a variable and shows it before its break fails. -/
private def stray : Expr :=
  .extension 0 .await .void [.block 1 [counter]
    [.assign 2 .assign (.variable 3 counter) (.constant 4 (.int 1) .int),
      .break 5 ⟨0, none, .void⟩] .void]

private def insideBlock : Session :=
  ((Session.start stray).push (.default 9 .void)).openScope

/-- The scope of the block that could not be shown is closed again. -/
theorem rendering_keeps_frame_failure : insideBlock.Reachable guarded {} ∧
    ∃ t, (visitWith guarded 5 stray).runOn {} insideBlock =
        (.ok "invalid Break node: break target is not an enclosing loop", t) ∧
      t.path = insideBlock.path ∧ t.scopes = [[], []] := by
  have hreach : insideBlock.Reachable guarded {} := .openScope (.enter _ (.start stray))
  have hrun : ((visitWith guarded 5 stray).runOn {} insideBlock).1 =
      .ok "invalid Break node: break target is not an enclosing loop" := by
    decide +kernel
  rcases h : (visitWith guarded 5 stray).runOn {} insideBlock with ⟨result, t⟩
  obtain ⟨hpath, hscopes, -, -⟩ :=
    rendering_keeps_frame.2 guarded {} insideBlock hreach 5 stray result t h
  rw [h] at hrun
  exact ⟨hreach, t, by rw [← hrun], hpath, hscopes⟩

end Failure

end ExprText
