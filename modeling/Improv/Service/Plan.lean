import Improv.Service.Authority
/-!
# Structural requests

What a structural request asks for: the model's structure with one change made,
a status line and the id of what was made.  A plan changes nothing; `adopt`
swaps its candidate in, with the cells it still has room for.
-/

namespace Improv.Service

open Improv.Lib Improv.CoreModel Improv.Engine

/-! ## Text -/

/-- The characters a name is trimmed of: Unicode's white space. -/
def isWhiteSpace (c : Char) : Bool :=
  let n := c.toNat
  (9 ≤ n && n ≤ 13) || n = 32 || n = 0x85 || n = 0xA0 || n = 0x1680 ||
    (0x2000 ≤ n && n ≤ 0x200A) || n = 0x2028 || n = 0x2029 || n = 0x202F || n = 0x205F ||
    n = 0x3000

def trimStart (s : String) : String := .ofList (s.toList.dropWhile isWhiteSpace)

def trimEnd (s : String) : String :=
  .ofList (s.toList.reverse.dropWhile isWhiteSpace).reverse

def trim (s : String) : String := trimEnd (trimStart s)

/-- A string as the source quotes it in a message; the characters it cannot
print are left as they are. -/
def debug (s : String) : String :=
  let escape (c : Char) : List Char :=
    if c = '"' then ['\\', '"']
    else if c = '\\' then ['\\', '\\']
    else if c = '\n' then ['\\', 'n']
    else if c = '\r' then ['\\', 'r']
    else if c = '\t' then ['\\', 't']
    else [c]
  .ofList ('"' :: s.toList.flatMap escape ++ ['"'])

/-- The text before the first `=` and the text after it. -/
def splitOnceEq (s : String) : Option (String × String) :=
  let lhs := s.toList.takeWhile (· ≠ '=')
  match s.toList.drop lhs.length with
  | [] => none
  | _ :: rhs => some (.ofList lhs, .ofList rhs)

/-- Whether a right-hand side is a lambda's: the word, in any case, and an
opening bracket. -/
def startsLambda (rhs : String) : Bool :=
  (rhs.toList.take 6).map Char.toLower = "lambda".toList &&
    ((rhs.toList.drop 6).dropWhile isWhiteSpace).head? = some '('

def joinNames (names : List String) : String := ", ".intercalate (names.mergeSort (· ≤ ·))

/-! ## Ids and references -/

/-- The id of a new thing: one past the highest, in 32 bits. -/
def nextId (ids : List Nat) : Nat :=
  match ids.max? with
  | none => 1
  | some m => (m + 1) % 2 ^ 32

def namesCategory (c : CategoryId) : Expr → Bool
  | .category x => x = c
  | .ref _ d => c ∈ d.byCats ∨ c ∈ d.overCats ∨ c ∈ d.exceptCats
  | .unaryOp _ a => namesCategory c a
  | .binaryOp _ a b => namesCategory c a || namesCategory c b
  | .call _ args => anyNames args
  | .literal _ => false
where
  anyNames : List Expr → Bool
    | [] => false
    | a :: as => namesCategory c a || anyNames as

/-- A placement without an item in its filters and pages. -/
def scrubItem (i : ItemId) (p : MatrixPlacement) : MatrixPlacement :=
  { p with
    filters := p.filters.map fun f => { f with items := f.items.filter (· ≠ i) }
    pageItems := p.pageItems.filter fun x => x.2 ≠ i }

/-- The part of a view a gate shows: matrices of visible measures, filters and
pages of visible items; none when no matrix is left. -/
def visibleView (g : Gate) (v : View) : Option View :=
  let left := (v.matrices.filter fun p => g.seesMeasure p.measure).map fun p =>
    { p with
      pageItems := p.pageItems.filter fun x => g.seesItem x.2
      filters := p.filters.map fun f => { f with items := f.items.filter g.seesItem } }
  match left with
  | [] => none
  | primary :: extras => some (.fromMatrices v.id v.name primary extras)

/-- The part of a view without a measure's matrices. -/
def withoutMeasure (m : MeasureId) (v : View) : Option View :=
  match v.matrices.filter fun p => p.measure ≠ m with
  | [] => none
  | primary :: extras => some (.fromMatrices v.id v.name primary extras)

/-- A category's items, none for a category the model does not have. -/
def itemsOf (m : Model) (c : CategoryId) : List ItemId :=
  (m.categories.get? c).elim [] Category.items

/-- Whether a measure's formula reads another, or its external call does. -/
def readsMeasure (m : Model) (mid : MeasureId) (x : Measure) : Bool :=
  (match x.kind with
    | .derived f => mid ∈ f.referencedMeasures
    | .input => false) ||
  (m.externalCalls.get? x.id).any fun k => mid ∈ k.argMeasures

/-- Whether a measure has a category or its formula names it. -/
def usesCategory (c : CategoryId) (x : Measure) : Bool :=
  c ∈ x.categories ||
    match x.kind with
    | .derived f => namesCategory c f.expr
    | .input => false

namespace Authority

variable {S E : Type} (env : Env S E)

/-- A structure a request asks for, a status line, and the id of what it
makes. -/
abbrev Planned := Except Refusal (Model × String × Option Nat)

/-! ## Adopting a structure -/

/-- Whether a model has room for a cell: an input measure with exactly its
categories, an item of each. -/
def hasRoom (m : Model) (c : Cell) : Bool :=
  (m.measures.get? c.measure).any fun x =>
    x.isInput && c.coord.size = x.categories.length &&
      c.coord.entries.all fun p =>
        p.1 ∈ x.categories && (m.items.get? p.2).any fun it => it.category = p.1

/-- What differs from one model to another. -/
def changesBetween (old new : Model) : ChangeSet where
  cells :=
    (new.inputs.filter fun k v => old.inputs.get? k ≠ some v).keys ++
      (old.inputs.filter fun k _ => !new.inputs.contains k).keys
  structural := old.structureOf ≠ new.structureOf

/-- The candidate with the cells it has room for, the restored ones where none
is set, and the cells it drops. -/
def fitCells (candidate : Model) (inputs : SortedMap Cell Value) (restore : Cells) :
    Model × Cells :=
  let kept := inputs.filter fun k _ => hasRoom candidate k
  let dropped := (inputs.filter fun k _ => !hasRoom candidate k).entries.map fun p =>
    (p.1, some p.2)
  let inputs := restore.foldl (fun ins w =>
    match w.2 with
    | some v =>
      if hasRoom candidate w.1 && !ins.contains w.1 then ins.insert w.1 v else ins
    | none => ins) kept
  ({ candidate with inputs }, dropped)

/-- Swaps in a structure that builds and that the store takes: the structure it
replaced and the cells dropped. -/
def adopt (candidate : Model) (restore : Cells) (a : Authority S E) :
    Outcome S E (Model × Cells) :=
  let (candidate, dropped) := fitCells candidate a.model.inputs restore
  match buildEngine env candidate with
  | .error e => .error (.bad e) a
  | .ok (engine, snapshot) =>
    match save env candidate (changesBetween a.model candidate) a with
    | .error r a => .error r a
    | .ok () a =>
      let previous := a.model.structureOf
      .ok (previous, dropped) (pushLog { a with
        model := candidate
        structureVersion := a.structureVersion + 1
        engine
        snapshot } none)

/-! ## Defining measures -/

/-- The refusal of a name that is taken. -/
def nameTaken (name : String) : Refusal :=
  .bad s!"{debug name} is already a category, measure or LAMBDA"

/-- Whether a name is a category's, measure's or lambda's other than `me`. -/
def taken (m : Model) (name : String) (me : Option Resource) : Bool :=
  (m.categoryByName name).any (fun x => me ≠ some (.category x.id)) ||
    (m.measureByName name).any (fun x => me ≠ some (.measure x.id)) ||
    (m.lambdaByName name).isSome

def parseFormula (m : Model) (text : String) : Except Refusal Formula :=
  match env.formulas.parseFormula m text with
  | .ok f => .ok f
  | .error (e, d) => .error ((Refusal.bad e).located d)

/-- A model with a provisional input measure of a name no measure has. -/
def withProvisional (m : Model) (id : MeasureId) (name : String) : Model :=
  if (m.measureByName name).isSome then m
  else m.addMeasure ⟨id, name, .number, [], .input, none, none⟩

/-- The formula of an update: its shape inferred and the whole structure
built. -/
def withFormula (g : Gate) (m c : Model) (mid : MeasureId) :
    Option String → Except Refusal (Model × List String)
  | none => .ok (c, [])
  | some text =>
    if !g.seesFormula mid && (m.measures.get? mid).any Measure.isDerived then
      .error .forbidden
    else
      match parseFormula env c text, c.measures.get? mid with
      | .error r, _ => .error r
      | .ok _, none => .error .forbidden
      | .ok formula, some x =>
        let located e := (Refusal.bad e).located (env.formulas.compileError m text e)
        let put (x : Measure) : Model := { c with measures := c.measures.insert mid x }
        match formula.expr.checkLimits with
        | .error e => .error (.bad e)
        | .ok () =>
          let x := { x with kind := .derived formula }
          match env.formulas.derivedShape (put x) mid x.name formula with
          | .error e => .error (located e)
          | .ok (valueType, categories) =>
            let c := put { x with valueType, categories }
            match buildEngine env c.structureOf with
            | .error e => .error (located e)
            | .ok _ => .ok (c, ["formula changed"])

/-- How a format is written: `general`, or its decimals, then `grouped`. -/
def showFormat (f : NumberFormat) : String :=
  (match f.decimals with
    | none => "general"
    | some 1 => "1 decimal"
    | some d => s!"{d} decimals") ++ if f.grouping then " grouped" else ""

/-- The name of an update, and what was said of it. -/
def withName (m c : Model) (mid : MeasureId) (x : Measure) :
    Option String → Except Refusal (Model × List String)
  | none => .ok (c, [])
  | some name =>
    let name := trim name
    if name = "" then .error (.bad "type a name")
    else if taken m name (some (.measure mid)) then .error (nameTaken name)
    else
      .ok ({ c with measures := c.measures.insert mid { x with name } }, [s!"renamed to {name}"])

/-- The format of an update, of a measure that held numbers before it. -/
def withFormat (c : Model) (mid : MeasureId) (x : Measure) :
    Option (Option NumberFormat) → Except Refusal (Model × List String)
  | none => .ok (c, [])
  | some format =>
    if x.valueType ≠ .number then .error (.bad s!"{x.name} holds no numbers to format")
    else
      .ok ({ c with
          measures := c.measures.map fun k y => if k = mid then { y with format } else y },
        [s!"format {showFormat (format.getD ⟨none, false⟩)}"])

/-- A measure's name, formula and format changed, as one step. -/
def updateMeasure (who : Principal) (id : Nat) (u : UpdateMeasureReq) (a : Authority S E) :
    Planned :=
  let g := gate env who a
  let m := a.model
  let mid : MeasureId := ⟨id⟩
  match m.measures.get? mid with
  | none => .error (.notFound "measure" id)
  | some x =>
    if !g.seesMeasure mid then .error (.notFound "measure" id)
    else if !g.allows .defineMeasure (.measure mid) then .error .forbidden
    else
      match withName m m.structureOf mid x u.name with
      | .error r => .error r
      | .ok (c, named) =>
        match withFormula env g m c mid u.formula with
        | .error r => .error r
        | .ok (c, redefined) =>
          match withFormat c mid x u.format with
          | .error r => .error r
          | .ok (c, formatted) =>
            let said := named ++ redefined ++ formatted
            if said = [] then .error (.bad "nothing to change: send formula, name or format")
            else .ok (c, s!"{x.name}: " ++ ", ".intercalate said, none)

/-- The categories of a new input measure: those asked for, or all. -/
def inputCategories (m : Model) : Option (List Nat) → Except Refusal (List CategoryId)
  | none => .ok m.categories.keys
  | some ids => ids.foldlM (fun out id =>
      if !m.categories.contains ⟨id⟩ then .error (.notFound "category" id)
      else if (⟨id⟩ : CategoryId) ∈ out then
        .error (.bad s!"category {id} is listed twice")
      else .ok (out ++ [⟨id⟩])) []

/-- A named lambda, defined or redefined. -/
def defineLambda (g : Gate) (m : Model) (text : String) : Planned :=
  if !g.allows .defineMeasure .model then .error .forbidden
  else
    match env.formulas.parseLambda m text with
    | .error (e, d) => .error ((Refusal.bad e).located d)
    | .ok none => .error (.bad "type Name = LAMBDA(parameters, body)")
    | .ok (some l) =>
      if (m.measureByName l.name).isSome || (m.categoryByName l.name).isSome then
        .error (.bad s!"{debug l.name} is a measure or category; name the LAMBDA differently")
      else
        let old := (m.lambdaByName l.name).map (·.1)
        let id := old.getD (nextId m.lambdas.keys)
        let verb := if old.isSome then "redefined" else "defined"
        .ok ({ m.structureOf with lambdas := m.lambdas.insert id l },
          s!"{verb} LAMBDA {l.name}", some id)

/-- A new derived measure. -/
def defineDerived (g : Gate) (m : Model) (name rhs : String) (offset : Nat) : Planned :=
  if !g.allows .defineMeasure .model then .error .forbidden
  else if taken m name none then .error (nameTaken name)
  else
    let id : MeasureId := ⟨nextId (m.measures.keys.map MeasureId.id)⟩
    match parseFormula env (withProvisional m id name) rhs with
    | .error r => .error (r.shift offset)
    | .ok formula =>
      match env.formulas.derivedShape m.structureOf id name formula with
      | .error e =>
        .error (((Refusal.bad e).located (env.formulas.compileError m rhs e)).shift offset)
      | .ok (valueType, categories) =>
        .ok (m.structureOf.addMeasure
            ⟨id, name, valueType, categories, .derived formula, none, none⟩,
          s!"defined {name}", some id.id)

/-- A new input measure. -/
def defineInput (g : Gate) (m : Model) (d : DefineReq) : Planned :=
  let name := trim (d.name.getD "")
  if name = "" then .error (.bad "send a definition (Name = formula) or a name")
  else if !g.allows .defineMeasure .model then .error .forbidden
  else if taken m name none then .error (nameTaken name)
  else
    match inputCategories m d.categories with
    | .error r => .error r
    | .ok categories =>
      let id := nextId (m.measures.keys.map MeasureId.id)
      .ok (m.structureOf.addMeasure
          ⟨⟨id⟩, name, d.valueType.getD .number, categories, .input, none, none⟩,
        s!"added input measure {name}", some id)

/-- `Name = formula` makes a derived measure or redefines one, `Name =
LAMBDA(…)` a named lambda, and a name alone an input measure. -/
def define (who : Principal) (d : DefineReq) (a : Authority S E) : Planned :=
  let g := gate env who a
  let m := a.model
  match d.definition with
  | none => defineInput g m d
  | some text =>
    match splitOnceEq text with
    | none => .error (.bad "type Name = formula")
    | some (lhs, rhs) =>
      let name := trim lhs
      let offset := text.utf8ByteSize - (trimStart rhs).utf8ByteSize
      let rhs := trim rhs
      if startsLambda rhs then defineLambda env g m text
      else if name = "" then .error (.bad "type Name = formula")
      else
        match (m.measureByName name).filter fun x => g.seesMeasure x.id with
        | some x =>
          match updateMeasure env who x.id.id ⟨some rhs, none, none⟩ a with
          | .error r => .error (r.shift offset)
          | .ok p => .ok p
        | none => defineDerived env g m name rhs offset

/-! ## The other requests -/

/-- The structure without a measure: its sources, its matrices and what the
scenarios override of it go too. -/
def dropMeasure (m : Model) (mid : MeasureId) : Model :=
  { m.structureOf with
    measures := m.measures.erase mid
    sqlSources := m.sqlSources.erase mid
    externalCalls := m.externalCalls.erase mid
    scenarios := m.scenarios.map fun _ s =>
      { s with overrides := s.overrides.filter fun k _ => k.measure ≠ mid }
    views := m.views.filterMap fun _ v => withoutMeasure mid v }

/-- The structure without a category and its items. -/
def dropCategory (m : Model) (cid : CategoryId) : Model :=
  { m.structureOf with
    items := m.items.filter fun i _ => i ∉ itemsOf m cid
    categories := m.categories.erase cid }

/-- The structure without an item: its category's list, the scenarios, the
filters and the pages lose it too. -/
def dropItem (m : Model) (iid : ItemId) (it : Item) : Model :=
  { m.structureOf with
    items := m.items.erase iid
    categories := m.categories.map fun c k =>
      if c = it.category then { k with items := k.items.filter (· ≠ iid) } else k
    scenarios := m.scenarios.map fun _ s =>
      { s with overrides := s.overrides.filter fun k _ =>
          !k.coord.values.any fun j => j = iid }
    views := m.views.map fun _ v =>
      { v with
        primary := scrubItem iid v.primary
        placements := v.placements.map (scrubItem iid) } }

def deleteMeasure (g : Gate) (m : Model) (id : Nat) : Planned :=
  let mid : MeasureId := ⟨id⟩
  match m.measures.get? mid with
  | none => .error (.notFound "measure" id)
  | some x =>
    if !g.seesMeasure mid then .error (.notFound "measure" id)
    else if !g.allows .defineMeasure (.measure mid) then .error .forbidden
    else
      let users := (m.measures.values.filter fun y =>
        y.id ≠ mid && readsMeasure m mid y).map Measure.name
      if users ≠ [] then
        .error (.bad s!"cannot delete {x.name}: {joinNames users} still read it")
      else
        .ok (dropMeasure m mid, s!"deleted measure {x.name}", none)

def addCategory (g : Gate) (m : Model) (n : NameReq) : Planned :=
  if !g.allows .editStructure .model then .error .forbidden
  else
    let name := trim n.name
    if name = "" then .error (.bad "type a name")
    else if taken m name none then .error (nameTaken name)
    else
      let id := nextId (m.categories.keys.map CategoryId.id)
      .ok (m.structureOf.addCategory ⟨id⟩ name, s!"added category {name}", some id)

def renameCategory (g : Gate) (m : Model) (id : Nat) (n : NameReq) : Planned :=
  let cid : CategoryId := ⟨id⟩
  match m.categories.get? cid with
  | none => .error (.notFound "category" id)
  | some k =>
    if !g.allows .editStructure (.category cid) then .error .forbidden
    else
      let name := trim n.name
      if name = "" then .error (.bad "type a name")
      else if taken m name (some (.category cid)) then .error (nameTaken name)
      else
        .ok ({ m.structureOf with categories := m.categories.insert cid { k with name } },
          s!"renamed category {k.name} to {name}", none)

/-- A category is deleted where no measure has it or names it; a hidden user is
not named. -/
def deleteCategory (g : Gate) (m : Model) (id : Nat) : Planned :=
  let cid : CategoryId := ⟨id⟩
  match m.categories.get? cid with
  | none => .error (.notFound "category" id)
  | some k =>
    if !g.allows .editStructure (.category cid) then .error .forbidden
    else
      let users := m.measures.values.filter (usesCategory cid)
      if users ≠ [] then
        let shown := (users.filter fun x => g.seesMeasure x.id).map Measure.name
        let named := if shown = [] then "" else s!" ({joinNames shown})"
        .error (.bad s!"cannot delete {k.name}: measures still use it{named}")
      else
        .ok (dropCategory m cid, s!"deleted category {k.name}", none)

/-- Whether another of some items has a name. -/
def itemNamed (m : Model) (items : List ItemId) (name : String) : Bool :=
  items.any fun i => (m.items.get? i).any fun it => it.name = name

def addItem (g : Gate) (m : Model) (category : Nat) (n : NameReq) : Planned :=
  let cid : CategoryId := ⟨category⟩
  match m.categories.get? cid with
  | none => .error (.notFound "category" category)
  | some k =>
    if !g.allows .editStructure (.category cid) then .error .forbidden
    else
      let name := trim n.name
      if name = "" then .error (.bad "type a name")
      else if itemNamed m k.items name then
        .error (.bad s!"{k.name} already has an item {debug name}")
      else
        let id := nextId (m.items.keys.map ItemId.id)
        .ok (m.structureOf.addItem ⟨id⟩ cid name, s!"added {name} to {k.name}", some id)

def renameItem (g : Gate) (m : Model) (id : Nat) (n : NameReq) : Planned :=
  let iid : ItemId := ⟨id⟩
  match m.items.get? iid with
  | none => .error (.notFound "item" id)
  | some it =>
    if !g.seesItem iid then .error (.notFound "item" id)
    else if !g.allows .editStructure (.item iid) then .error .forbidden
    else
      let name := trim n.name
      if name = "" then .error (.bad "type a name")
      else if itemNamed m ((itemsOf m it.category).filter (· ≠ iid)) name then
        let category := (m.categories.get? it.category).elim "" Category.name
        .error (.bad s!"{category} already has an item {debug name}")
      else
        .ok ({ m.structureOf with items := m.items.insert iid { it with name } },
          s!"renamed item {it.name} to {name}", none)

def deleteItem (g : Gate) (m : Model) (id : Nat) : Planned :=
  let iid : ItemId := ⟨id⟩
  match m.items.get? iid with
  | none => .error (.notFound "item" id)
  | some it =>
    if !g.seesItem iid then .error (.notFound "item" id)
    else if !g.allows .editStructure (.item iid) then .error .forbidden
    else
      .ok (dropItem m iid it, s!"deleted item {it.name}", none)

/-- A placement names a visible measure and visible items. -/
def checkPlacement (g : Gate) (p : MatrixPlacement) : Except Refusal Unit :=
  if !g.seesMeasure p.measure then .error (.notFound "measure" p.measure.id)
  else
    match (p.pageItems.map (·.2) ++ p.filters.flatMap Filter.items).find? fun i =>
      !g.seesItem i with
    | some i => .error (.notFound "item" i.id)
    | none => .ok ()

/-- A view of these matrices, each naming a visible measure and items. -/
def viewOf (g : Gate) (id : ViewId) (name : String) :
    List MatrixPlacement → Except Refusal View
  | [] => .error (.bad "a view needs at least one matrix")
  | primary :: rest =>
    match (primary :: rest).forM (checkPlacement g) with
    | .error r => .error r
    | .ok () => .ok (.fromMatrices id name primary rest)

def saveView (g : Gate) (m : Model) (v : ViewReq) : Planned :=
  if !g.allows .manageViews .model then .error .forbidden
  else
    let name := trim (v.name.getD "")
    if name = "" then .error (.bad "a view needs a name")
    else if (m.viewByName name).isSome then
      .error (.bad s!"a view is already named {debug name}")
    else
      let id := nextId (m.views.keys.map ViewId.id)
      match viewOf g ⟨id⟩ name (v.matrices.getD []) with
      | .error r => .error r
      | .ok view => .ok (m.structureOf.addView view, s!"saved view {name}", some id)

/-- A view a gate shows any of. -/
def shownView (g : Gate) (m : Model) (vid : ViewId) : Option View :=
  (m.views.get? vid).filter fun x => (visibleView g x).isSome

def updateView (g : Gate) (m : Model) (id : Nat) (v : ViewReq) : Planned :=
  let vid : ViewId := ⟨id⟩
  match shownView g m vid with
  | none => .error (.notFound "view" id)
  | some old =>
    if !g.allows .manageViews (.view vid) then .error .forbidden
    else
      let name := ((v.name.map trim).filter (· ≠ "")).getD old.name
      if (m.viewByName name).any fun x => x.id ≠ vid then
        .error (.bad s!"a view is already named {debug name}")
      else
        match viewOf g vid name (v.matrices.getD old.matrices) with
        | .error r => .error r
        | .ok view => .ok (m.structureOf.addView view, s!"saved view {name}", none)

def deleteView (g : Gate) (m : Model) (id : Nat) : Planned :=
  let vid : ViewId := ⟨id⟩
  match shownView g m vid with
  | none => .error (.notFound "view" id)
  | some old =>
    if !g.allows .manageViews (.view vid) then .error .forbidden
    else
      .ok ({ m.structureOf with views := m.views.erase vid }, s!"deleted view {old.name}", none)

/-- The structure a request asks for, checked; nothing changes yet. -/
def plan (who : Principal) (req : Request) (a : Authority S E) : Planned :=
  let g := gate env who a
  let m := a.model
  match req with
  | .define d => define env who d a
  | .updateMeasure id u => updateMeasure env who id u a
  | .deleteMeasure id => deleteMeasure g m id
  | .addCategory n => addCategory g m n
  | .renameCategory id n => renameCategory g m id n
  | .deleteCategory id => deleteCategory g m id
  | .addItem category n => addItem g m category n
  | .renameItem id n => renameItem g m id n
  | .deleteItem id => deleteItem g m id
  | .saveView v => saveView g m v
  | .updateView id v => updateView g m id v
  | .deleteView id => deleteView g m id
  | .readStructure | .window .. | .edit _ | .undo | .redo =>
    .error (.bad "not a structural change")

/-- Adopts a request's structure and records the step. -/
def changeStructure (who : Principal) (session : String) (req : Request)
    (a : Authority S E) : Outcome S E Done :=
  match plan env who req a with
  | .error r => .error r a
  | .ok (candidate, message, id) =>
    match adopt env candidate [] a with
    | .error r a => .error r a
    | .ok (previous, dropped) a =>
      let a := record session (.structural previous dropped) a
      .ok ⟨a.version, message, id⟩ a

end Authority

end Improv.Service
