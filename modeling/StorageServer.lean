import StorageServer.Library.DoublyLinked
import StorageServer.Library.KeyedList
import StorageServer.Library.Runs
import StorageServer.Common.Murmur
import StorageServer.Server.CircQueue
import StorageServer.Server.FileSystem
import StorageServer.Server.Store
import StorageServer.Server.Shape
import StorageServer.Server.StoreView
import StorageServer.Server.Ejection
import StorageServer.Server.Refinement
import StorageServer.Server.StoreSteps
import StorageServer.Server.Accounting
import StorageServer.Library.Recency
import StorageServer.Server.Recency
import StorageServer.Library.LockTable
import StorageServer.Server.LockQueues
import StorageServer.Server.FileMap
import StorageServer.Server.Names
import StorageServer.Common.Message
import StorageServer.Library.Calls
import StorageServer.Server.Session
import StorageServer.Server.HandleWork
import StorageServer.Server.Requests
import StorageServer.Server.Ownership
import StorageServer.Server.Refusal
import StorageServer.Server.Threads
import StorageServer.Server.Places
import StorageServer.Common.Net
import StorageServer.Common.Decoding
import StorageServer.Common.Codec
import StorageServer.Server.NoSession
import StorageServer.Server.Capacity
import StorageServer.Server.Exclusion
import StorageServer.Server.SessionSteps
import StorageServer.Server.Writing
import StorageServer.Server.Teardown
import StorageServer.Library.Mutexes
import StorageServer.Server.Locking
import StorageServer.Server.Notifications
import StorageServer.Client.Options
import StorageServer.Client.FileRequests
import StorageServer.Client.EjectedFiles
import StorageServer.Common.HuffmanEncoding
import StorageServer.Library.CodeTrees
import StorageServer.Library.TwoQueues
import StorageServer.Common.HuffmanBuffers
import StorageServer.Common.HuffmanMerging
import StorageServer.Common.HuffmanTables
import StorageServer.Library.BoundedMaps
import StorageServer.Server.SelectThread
import StorageServer.Server.SessionSlots
import StorageServer.Server.SessionMaps
import StorageServer.Server.Withheld
import StorageServer.Server.RequestLog
import StorageServer.Server.Sampling
import StorageServer.Server.Eviction
import StorageServer.Common.HuffmanCompression
import StorageServer.Common.HuffmanDecoding
import StorageServer.Common.HuffmanDecompression
import StorageServer.Common.HuffmanFaults
import StorageServer.Common.HuffmanRobustness
import StorageServer.Library.OptimalTrees
import StorageServer.Library.QueueCosts
import StorageServer.Common.HuffmanOptimality
import StorageServer.Library.BoundedQueues
import StorageServer.Server.RingBuffer
import StorageServer.Common.Fragmentation
import StorageServer.Common.Integers
import StorageServer.Library.LastWrites
import StorageServer.Library.Lines
import StorageServer.Server.Loader
import StorageServer.Server.Configuration
import StorageServer.Server.ConfigFiles
import StorageServer.Common.Uuid
import StorageServer.Common.HuffmanConstruction
import StorageServer.Library.Monitors
import StorageServer.Server.WakeUps
import StorageServer.Library.Atomicity
import StorageServer.Server.Linearizability
import StorageServer.Server.Contents
import StorageServer.Common.Sockets
import StorageServer.Library.Fuel
import StorageServer.Server.Shutdown
import StorageServer.Server.Termination
import StorageServer.Client.Arguments
import StorageServer.Client.Connection
import StorageServer.Deployment.Clients
import StorageServer.Deployment.Conformance
import StorageServer.Common.MurmurPreimage
import StorageServer.Server.DepthLimit
