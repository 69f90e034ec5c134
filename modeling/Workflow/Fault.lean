import Workflow.Ident
import Workflow.Text.Quoted

/-!
# Faults

Why an operation fails, as causes; `Fault.message` words them. A store or a step may also report a
fault in words of its own.
-/

set_option autoImplicit false

namespace Workflow

inductive Missing where
  /-- A revision of a state; revision `0` stands for the latest. -/
  | state (id : StateId) (rev : Int)
  | labelled (labels : SortedMap String String)
  | blob (id : BlobId)
  | blobRevision (id : BlobId) (rev : Int)
  | stacked (note : String)
  | note (name : String)
  | reported (text : String)
  deriving DecidableEq

inductive BadReference where
  | opening
  | noRevision
  | revision
  | noBlob
  deriving DecidableEq

inductive Invalid where
  | noTarget
  | occupied (note : String)
  | corrupt
  | notStored
  | reference (why : BadReference) (raw : String)
  | emptyBundle
  | notInBundle (command : String)
  | anonymous (command : String)
  | anonymousExecution
  | nowhere (id : StateId)
  | recovererMeta
  | retryBounds
  | recovererInterval
  | delayerMeta
  | delayerInterval
  | delayerCapacity
  /-- A variable of the environment with an unreadable value. -/
  | setting (key value : String)
  /-- A variable of the environment that should hold a span of time. -/
  | spanSetting (key value : String)
  | reported (text : String)
  deriving DecidableEq

/-- What was still going on at the end of a deadline. -/
inductive Unfinished where
  | executions (n : Nat)
  | recoverer
  | delayer
  | reported (text : String)
  deriving DecidableEq

inductive Fault where
  | notFound (what : Missing)
  | stepNotFound (name : String)
  | unsupported (operation : String)
  /-- The states advanced beyond the revisions that a commit expected. -/
  | conflict (ids : List StateId)
  | invalid (why : Invalid)
  | storage (report : String)
  | malformed
  | unfinished (what : Unfinished)
  | other (report : String)
  deriving DecidableEq

def Missing.message : Missing → String
  | state id rev => s!"estado {id} rev {rev}"
  | labelled labels => "estado con etiquetas " ++ Text.quotedMap labels.entries
  | blob id => s!"datos {id}"
  | blobRevision id rev => s!"datos {id} rev {rev}"
  | stacked name => s!"no hay estado apilado en {name}"
  | note name => s!"anotación {name}"
  | reported text => text

def Invalid.message : Invalid → String
  | noTarget => "transit sin paso de destino"
  | occupied note => s!"la anotación {note} ya contiene un estado apilado"
  | corrupt => "estado apilado corrupto"
  | notStored => "sólo se pueden referenciar datos ya guardados"
  | reference .opening raw => s!"referencia de datos inválida: {raw}"
  | reference .noRevision raw => s!"referencia de datos sin revisión: {raw}"
  | reference .revision raw => s!"revisión de datos inválida: {raw}"
  | reference .noBlob raw => s!"referencia de datos sin id: {raw}"
  | emptyBundle => "commit sin subcomandos"
  | notInBundle command => s!"{command} no está permitido dentro de commit"
  | anonymous command => s!"{command} sin id de estado"
  | anonymousExecution => "estado sin id"
  | nowhere id => s!"estado {id} sin paso de destino"
  | recovererMeta => "recoverer sin meta id"
  | retryBounds => "min_retry_after mayor que max_retry_after"
  | recovererInterval => "los intervalos del recoverer deben ser positivos"
  | delayerMeta => "delayer sin meta id"
  | delayerInterval => "los intervalos del delayer deben ser positivos"
  | delayerCapacity => "max_tracked debe ser positivo"
  | setting key value => s!"{key} tiene un valor inválido: {value}"
  | spanSetting key value => s!"{key} no es una duración válida: {value}"
  | reported text => text

def Unfinished.message : Unfinished → String
  | executions n => s!"{n} ejecuciones siguen en curso"
  | recoverer => "recoverer"
  | delayer => "delayer"
  | reported text => text

namespace Fault

def conflictMessage (ids : List StateId) : String :=
  "conflicto de revisión; ids: " ++ ", ".intercalate (ids.map Ident.text)

def message : Fault → String
  | notFound what => "No encontrado: " ++ what.message
  | stepNotFound name => "Flow no registrado: " ++ name
  | unsupported operation => "Comando no soportado: " ++ operation
  | conflict ids => conflictMessage ids
  | invalid why => "Error de validación: " ++ why.message
  | storage report => "Error de almacenamiento: " ++ report
  | malformed => "Error de serialización"
  | unfinished what => "Plazo de apagado agotado: " ++ what.message
  | other report => "Otro: " ++ report

def isConflict : Fault → Bool
  | conflict _ => true
  | _ => false

def isNotFound : Fault → Bool
  | notFound _ => true
  | _ => false

def isUnsupported : Fault → Bool
  | unsupported _ => true
  | _ => false

def conflictsOn (id : StateId) : Fault → Bool
  | conflict ids => ids.contains id
  | _ => false

/-- The computation without effects that has the given outcome. -/
def settle {m : Type → Type} [Monad m] {α : Type} (outcome : Except Fault α) : ExceptT Fault m α :=
  ExceptT.mk (pure outcome)

end Fault

/-! ### Conflicts -/

/-- The list with the state at its end, unless it has it already. -/
def addConflict (ids : List StateId) (id : StateId) : List StateId :=
  if ids.contains id then ids else ids ++ [id]

/-- Fails with a conflict of the given states, if there are any. -/
def requireNoConflict (ids : List StateId) : Except Fault Unit :=
  if ids.isEmpty then .ok () else .error (.conflict ids)

end Workflow
