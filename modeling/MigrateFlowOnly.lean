import MigrateFlowOnly.PyStr
import MigrateFlowOnly.BraceMatch
import MigrateFlowOnly.MethodBlock
import MigrateFlowOnly.ThreadContext
import MigrateFlowOnly.ManagedContext
import MigrateFlowOnly.Orchestrator
import MigrateFlowOnly.TryStatement
import MigrateFlowOnly.ManagedSpec
