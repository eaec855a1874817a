import Dtq.Lib.Transition
import Dtq.Lib.Indexed
import Dtq.Lib.NumberText
import Dtq.Lib.Lockstep
import Dtq.Lib.Kahn
import Dtq.Lib.Scored
import Dtq.Lib.Feed
import Dtq.Lib.DelayLine
import Dtq.Lib.Simulation
import Dtq.Lib.Ledger
import Dtq.Core.Models
import Dtq.Core.Backoff
import Dtq.Store.Repository
import Dtq.Broker.Lease
import Dtq.Broker.OwnerText
import Dtq.Broker.Redis
import Dtq.Broker.Scheduled
import Dtq.Broker.Depth
import Dtq.Broker.Kafka
import Dtq.Broker.KafkaQueues
import Dtq.Broker.Decoding
import Dtq.Broker.KafkaDelay
import Dtq.Broker.RabbitDelay
import Dtq.Broker.RabbitDlq
import Dtq.Worker.Executor
import Dtq.Worker.Loop
import Dtq.Worker.Moves
import Dtq.Worker.Drain
import Dtq.Worker.Limits
import Dtq.Control.App
import Dtq.Control.Moves
import Dtq.Control.Dlq
import Dtq.Control.Sessions
import Dtq.Control.Events
import Dtq.Control.Fleet
import Dtq.System.Step
import Dtq.System.Moves
import Dtq.System.Queues
import Dtq.System.Effects
import Dtq.System.Fencing
import Dtq.System.Enqueue
import Dtq.System.Custody
import Dtq.System.Attempts
import Dtq.System.TaskStates
import Dtq.System.Identity
import Dtq.System.Executions
import Dtq.System.Requeues
import Dtq.System.Intake
import Dtq.System.Refusals
import Dtq.System.Reports
import Dtq.System.Closing
import Dtq.System.Chain
import Dtq.System.ChainRuns
import Dtq.System.AttemptNumbers
import Dtq.System.Redelivery
import Dtq.System.Dedup
import Dtq.System.Unexecuted
import Dtq.System.Cancellation
import Dtq.System.Simulated
import Dtq.System.Settling
import Dtq.System.Recovery
import Dtq.System.Contents
import Dtq.System.Ledger
import Dtq.System.Early
import Dtq.System.Copies
import Dtq.System.Ticks
import Dtq.System.TaskReport
import Dtq.Workflow.Dag
import Dtq.Workflow.Engine
import Dtq.Workflow.Moves
import Dtq.Workflow.Names
import Dtq.Workflow.Tracking
import Dtq.Workflow.Plain
import Dtq.Workflow.FanOut
import Dtq.Workflow.Validator
import Dtq.Workflow.Origin
import Dtq.Control.Workflows
import Dtq.Workflow.Calls
import Dtq.Workflow.Transactions
import Dtq.Workflow.Verdict
import Dtq.Workflow.Concurrent
import Dtq.Workflow.Dataflow
import Dtq.Workflow.Workers
import Dtq.Bench.Producer
